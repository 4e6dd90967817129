import Isel.Proofs.Agreement
import Isel.Proofs.Construction
import Isel.Proofs.Image
import Isel.Proofs.InStep
import Isel.Proofs.Switching

/-!
# Functions declared ahead

With forward calls all functions are declared before the program is lowered.  A program that is
lowered without this is lowered to the same module with it, names of blocks apart.

While it is lowered, the module with forward calls has the functions that are still to come, each
with a graph of one empty block, behind those of the other one (`Ahead`).  As graphs are numbered
in the order of the functions, a block has the same place in both modules.
-/

namespace Isel.Flow

/-! ## Blocks without names -/

/-- What a block holds beside its name: its instructions and its edges. -/
abbrev Content := List Instr × List (Option BlockRef)

def Block.content (b : Block) : Content := (b.instrs, b.successors)

theorem map_modify {α β : Type} {f : α → α} {c : α → β} (f' : β → β)
    (h : ∀ a, c (f a) = f' (c a)) (l : List α) (k : Nat) :
    (l.modify k f).map c = (l.map c).modify k f' := by
  refine List.ext_getElem? fun i => ?_
  rw [List.getElem?_map, List.getElem?_modify, List.getElem?_modify, List.getElem?_map]
  cases l[i]? with
  | none => rfl
  | some a => by_cases hk : k = i <;> simp [hk, h]

namespace Module

/-- What the blocks of a graph hold beside their names. -/
def content (m : Module) (g : Nat) : List Content :=
  (m.graph g).blocks.map Block.content

section Content

variable {m m' : Module}

theorem content_modifyBlock {f : Block → Block} (f' : Content → Content)
    (hf : ∀ b, (f b).content = f' b.content) (m : Module) (r : BlockRef) (g : Nat) :
    (m.modifyBlock r f).content g =
      if g = r.graph then (m.content g).modify r.index f' else m.content g := by
  rw [content, graph_modifyBlock]
  split
  · exact map_modify f' hf _ _
  · rfl

theorem content_addBlock {g : Nat} (h : g < m.graphs.length) (q : Nat) :
    (m.addBlock g "" []).1.content q =
      if q = g then m.content q ++ [([], [])] else m.content q := by
  rw [content, blocks_addBlock h]
  split
  · rw [List.map_append]
    rfl
  · rfl

theorem content_of_le {g : Nat} (h : m.graphs.length ≤ g) : m.content g = [] := by
  rw [content, graph, List.getElem?_eq_none h]
  rfl

theorem map_content_block? (m : Module) (r : BlockRef) :
    (m.block? r).map Block.content = (m.content r.graph)[r.index]? := List.getElem?_map.symm

theorem length_content (m : Module) (g : Nat) : (m.content g).length = m.count g :=
  List.length_map ..

/-- The image of a module does not depend on the names of blocks. -/
theorem image_congr (hfunctions : m'.functions = m.functions) (hglobals : m'.globals = m.globals)
    (hcontent : ∀ g, m'.content g = m.content g) : m'.image = m.image := by
  have hinstrs : ∀ (m : Module) (g : Nat), (m.graph g).instrs = (m.content g).flatMap Prod.fst :=
    fun m g => (List.flatMap_map Block.content Prod.fst (m.graph g).blocks).symm
  have hrefs : ∀ g, m'.blockRefs g = m.blockRefs g := by
    intro g
    have hcount : m'.count g = m.count g := by
      rw [← length_content, ← length_content, hcontent]
    exact congrArg (fun n => (List.range n).map fun i => (⟨g, i⟩ : BlockRef)) hcount
  have hresolver : m'.resolver = m.resolver := by
    simp only [resolver, numbering, hfunctions, hrefs]
  have hsections : m'.sections = m.sections := by
    simp only [sections, hfunctions, hglobals, hinstrs, hcontent]
  rw [image_eq, image_eq, hresolver, hsections]

end Content

end Module

end Isel.Flow

namespace Isel.Select

open Isel.Flow Isel.Syntax Isel.Proofs

/-! ## Graphs ahead -/

theorem content_declaredModule (m : Module) (name : String) (g : Nat) :
    (declaredModule m name).content g =
      if g = m.graphs.length then [([], [])] else m.content g := by
  have hlt : m.graphs.length < (m.addGraph false).1.graphs.length := by
    simp [Module.addGraph]
  have hsame : (m.addGraph false).1.content g = m.content g :=
    congrArg (List.map Block.content) (graph_addGraph m g false)
  show ((m.addGraph false).1.addBlock m.graphs.length "" []).1.content g = _
  rw [Module.content_addBlock hlt, hsame]
  split
  · next hg => rw [Module.content_of_le (Nat.le_of_eq hg.symm), List.nil_append]
  · rfl

theorem globals_declaredModule (m : Module) (name : String) :
    (declaredModule m name).globals = m.globals :=
  ((m.addGraph false).1.addBlock_rest m.graphs.length).2.2.1

/-- The second module has `k` graphs of one empty block behind the `n` graphs of the first one,
and is the same otherwise, names of blocks and functions apart. -/
structure GraphsAhead (n k : Nat) (m m' : Module) : Prop where
  length : m.graphs.length = n
  length_ahead : m'.graphs.length = n + k
  same : ∀ g, g < n → m'.content g = m.content g
  empty : ∀ g, n ≤ g → g < n + k → m'.content g = [([], [])]
  globals : m'.globals = m.globals
  literals : m'.literals = m.literals
  interned : m'.interned = m.interned

namespace GraphsAhead

variable {n k : Nat} {m m' : Module}

theorem modifyBlock (h : GraphsAhead n k m m') {r : BlockRef} (hr : r.graph < n)
    {f : Block → Block} (f' : Content → Content) (hf : ∀ b, (f b).content = f' b.content) :
    GraphsAhead n k (m.modifyBlock r f) (m'.modifyBlock r f) where
  length := by simp [Module.modifyBlock, h.length]
  length_ahead := by simp [Module.modifyBlock, h.length_ahead]
  same g hg := by
    rw [Module.content_modifyBlock f' hf, Module.content_modifyBlock f' hf, h.same g hg]
  empty g hle hlt := by
    rw [Module.content_modifyBlock f' hf, if_neg (by omega), h.empty g hle hlt]
  globals := h.globals
  literals := h.literals
  interned := h.interned

theorem emit (h : GraphsAhead n k m m') (pt : Point) (hpt : pt.In (· < n)) (i : Instr) :
    GraphsAhead n k (pt.emit m i) (pt.emit m' i) := by
  cases pt with
  | globals => exact { h with globals := congrArg (· ++ [i]) h.globals }
  | block r => exact h.modifyBlock hpt (fun c => (c.1 ++ [i], c.2)) fun _ => rfl

theorem connect (h : GraphsAhead n k m m') {r : BlockRef} (hr : r.graph < n)
    (target : Option BlockRef) : GraphsAhead n k (m.connect r target) (m'.connect r target) :=
  h.modifyBlock hr (fun c => (c.1, c.2 ++ [target])) fun _ => rfl

theorem addBlock (h : GraphsAhead n k m m') {g : Nat} (hg : g < n) :
    GraphsAhead n k (m.addBlock g "" []).1 (m'.addBlock g "" []).1 where
  length := (m.addBlock_rest g).1.trans h.length
  length_ahead := (m'.addBlock_rest g).1.trans h.length_ahead
  same q hq := by
    have hm : g < m.graphs.length := h.length ▸ hg
    have hm' : g < m'.graphs.length := by rw [h.length_ahead]; omega
    rw [Module.content_addBlock hm, Module.content_addBlock hm', h.same q hq]
  empty q hle hlt := by
    have hm' : g < m'.graphs.length := by rw [h.length_ahead]; omega
    rw [Module.content_addBlock hm', if_neg (by omega), h.empty q hle hlt]
  globals := by rw [(m.addBlock_rest g).2.2.1, (m'.addBlock_rest g).2.2.1, h.globals]
  literals := by rw [(m.addBlock_rest g).2.2.2, (m'.addBlock_rest g).2.2.2, h.literals]
  interned := by rw [m.interned_addBlock, m'.interned_addBlock, h.interned]

theorem any (h : GraphsAhead n k m m') {r : BlockRef} (hr : r.graph < n) (p : Content → Bool) :
    (m'.block? r).any (fun b => p b.content) = (m.block? r).any fun b => p b.content := by
  have hmap : ∀ o : Option Block, (o.any fun b => p b.content) = (o.map Block.content).any p :=
    fun o => by cases o <;> rfl
  rw [hmap, hmap, Module.map_content_block?, Module.map_content_block?, h.same _ hr]

theorem count (h : GraphsAhead n k m m') {g : Nat} (hg : g < n) : m'.count g = m.count g := by
  rw [← Module.length_content, ← Module.length_content, h.same g hg]

theorem opened (h : GraphsAhead n k m m') {r : BlockRef} (hr : r.graph < n) :
    GraphsAhead n k (openedModule m r) (openedModule m' r) := by
  have hadd := h.addBlock hr
  have hnext : (m'.addBlock r.graph "" []).2 = (m.addBlock r.graph "" []).2 := by
    rw [Module.addBlock_eq, Module.addBlock_eq, h.count hr]
  have hends : ((m'.addBlock r.graph "" []).1.block? r).any Block.isTerminated =
      ((m.addBlock r.graph "" []).1.block? r).any Block.isTerminated :=
    hadd.any hr fun c => c.1.getLast?.any Instr.isTerminator
  simp only [openedModule, hnext, hends]
  split
  · exact hadd
  · exact hadd.connect hr _

theorem jumped (h : GraphsAhead n k m m') {r : BlockRef} (hr : r.graph < n) (target : BlockRef) :
    GraphsAhead n k
      (if (m.block? r).any fun b => b.endsInRet || b.hasSuccessor (some target) then
        m.emit r (jumpTo target) else (m.emit r (jumpTo target)).connect r (some target))
      (if (m'.block? r).any fun b => b.endsInRet || b.hasSuccessor (some target) then
        m'.emit r (jumpTo target) else (m'.emit r (jumpTo target)).connect r (some target)) := by
  have hemit := h.emit (.block r) hr (jumpTo target)
  have hskip : ((m'.block? r).any fun b => b.endsInRet || b.hasSuccessor (some target)) =
      (m.block? r).any fun b => b.endsInRet || b.hasSuccessor (some target) :=
    h.any hr fun c => (c.1.getLast?.any fun i : Instr => i.op == .ret) || c.2.contains (some target)
  rw [hskip]
  split
  · exact hemit
  · exact hemit.connect hr _

theorem entry? (h : GraphsAhead n k m m') {g : Nat} (hg : g < n) : m'.entry? g = m.entry? g := by
  have hempty : ∀ m : Module, (m.graph g).blocks.isEmpty = (m.content g).isEmpty :=
    fun m => List.isEmpty_map.symm
  rw [Module.entry?, Module.entry?, hempty, hempty, h.same g hg]

theorem declared (h : GraphsAhead n (k + 1) m m') (name : String) :
    GraphsAhead (n + 1) k (declaredModule m name) m' where
  length := by rw [← h.length]; exact (reservedModule_spec m).2.2.2.1
  length_ahead := by rw [h.length_ahead]; omega
  same g hg := by
    rw [content_declaredModule, h.length]
    split
    · exact h.empty g (by omega) (by omega)
    · exact h.same g (by omega)
  empty g hle hlt := h.empty g (by omega) (by omega)
  globals := h.globals.trans (globals_declaredModule m name).symm
  literals := by rw [h.literals]; exact (reservedModule_spec m).2.2.2.2.2.symm
  interned := h.interned.trans (interned_reservedModule m).symm

theorem reserved (h : GraphsAhead n k m m') (name : String) :
    GraphsAhead n (k + 1) m (declaredModule m' name) where
  length := h.length
  length_ahead := by
    rw [← Nat.add_assoc, ← h.length_ahead]
    exact (reservedModule_spec m').2.2.2.1
  same g hg := by
    rw [content_declaredModule, h.length_ahead, if_neg (by omega), h.same g hg]
  empty g hle hlt := by
    rw [content_declaredModule, h.length_ahead]
    split
    · rfl
    · exact h.empty g hle (by omega)
  globals := (globals_declaredModule m' name).trans h.globals
  literals := by rw [← h.literals]; exact (reservedModule_spec m').2.2.2.2.2
  interned := (interned_reservedModule m').trans h.interned

end GraphsAhead

/-! ## Functions ahead -/

/-- The functions that are declared ahead, behind `n` others. -/
def functionsAhead : Nat → List Signature → List Function
  | _, [] => []
  | n, sig :: ahead => ⟨sig.name, n⟩ :: functionsAhead (n + 1) ahead

theorem functionsAhead_concat : ∀ (ahead : List Signature) (n : Nat) (sig : Signature),
    functionsAhead n (ahead ++ [sig]) =
      functionsAhead n ahead ++ [⟨sig.name, n + ahead.length⟩] := by
  intro ahead
  induction ahead with
  | nil => exact fun n sig => rfl
  | cons first ahead ih =>
    intro n sig
    rw [List.cons_append, functionsAhead, functionsAhead, ih, List.cons_append, List.length_cons,
      Nat.add_right_comm, Nat.add_assoc]

theorem map_name_functionsAhead : ∀ (ahead : List Signature) (n : Nat),
    (functionsAhead n ahead).map Function.name = ahead.map Signature.name := by
  intro ahead
  induction ahead with
  | nil => exact fun n => rfl
  | cons sig ahead ih => exact fun n => congrArg (sig.name :: ·) (ih (n + 1))

/-- The first state has the functions `done`, and the second one those of `ahead` behind them.
Apart from these and from names of blocks the states are the same. -/
structure Ahead (done : List Function) (ahead : List Signature) (s t : State) : Prop where
  graphs : GraphsAhead done.length ahead.length s.module t.module
  owned : ∀ f ∈ done, f.graph < done.length
  functions : s.module.functions = done
  functions_ahead : t.module.functions = done ++ functionsAhead done.length ahead
  signed : s.signatures.map Signature.name = done.map Function.name
  signatures : t.signatures = s.signatures ++ ahead
  apart : (done.map Function.name ++ ahead.map Signature.name).Nodup
  slots : t.slots = s.slots
  remarks : t.remarks = s.remarks
  served : t.served = s.served

section Ahead

variable {done : List Function} {ahead : List Signature} {s t : State}

/-- A step that changes the modules alone and leaves their functions. -/
theorem Ahead.withModule (h : Ahead done ahead s t) {m m' : Module}
    (hgraphs : GraphsAhead done.length ahead.length m m')
    (hm : m.functions = s.module.functions) (hm' : m'.functions = t.module.functions) :
    Ahead done ahead { s with module := m } { t with module := m' } where
  graphs := hgraphs
  owned := h.owned
  functions := hm.trans h.functions
  functions_ahead := hm'.trans h.functions_ahead
  signed := h.signed
  signatures := h.signatures
  apart := h.apart
  slots := h.slots
  remarks := h.remarks
  served := h.served

theorem Ahead.emit (h : Ahead done ahead s t) (pt : Point) (hpt : pt.In (· < done.length))
    (i : Instr) : Ahead done ahead (s.emit pt i) (t.emit pt i) :=
  h.withModule (h.graphs.emit pt hpt i) (pt.emit_rest s.module i).2.1 (pt.emit_rest t.module i).2.1

theorem functions_openedModule (m : Module) (r : BlockRef) :
    (openedModule m r).functions = m.functions := by
  simp only [openedModule]
  split
  · exact (m.addBlock_rest r.graph).2.1
  · exact (m.addBlock_rest r.graph).2.1

theorem ahead_openBlock {r : BlockRef} (hr : r.graph < done.length) :
    InStep (Ahead done ahead) (openBlock r) (openBlock r) fun q => q.graph < done.length := by
  constructor
  intro s t q s' h hrun
  rw [openBlock_apply] at hrun
  cases hrun
  rw [openBlock_apply, h.graphs.count hr]
  exact ⟨_, rfl, h.withModule (h.graphs.opened hr) (functions_openedModule s.module r)
    (functions_openedModule t.module r), hr⟩

theorem ahead_jump {r : BlockRef} (hr : r.graph < done.length) (target : BlockRef) :
    InStep (Ahead done ahead) (jump r target) (jump r target) := by
  have hfunctions : ∀ (c : Bool) (m : Module),
      (if c then m.emit r (jumpTo target)
        else (m.emit r (jumpTo target)).connect r (some target)).functions = m.functions := by
    intro c m
    cases c <;> rfl
  constructor
  rintro s t u s' h ⟨⟩
  exact ⟨_, rfl, h.withModule (h.graphs.jumped hr target) (hfunctions _ s.module)
    (hfunctions _ t.module), trivial⟩

theorem literalEntry_congr (su : Setup) (bytes : List UInt8) {m m' : Module}
    (h : m'.literals = m.literals) (hi : m'.interned = m.interned) :
    ∃ k literals interned,
      literalEntry su bytes m = ({ m with literals, interned }, k) ∧
        literalEntry su bytes m' = ({ m' with literals, interned }, k) := by
  have hslots : m'.slotsOf (su.digest bytes) = m.slotsOf (su.digest bytes) := by
    rw [Module.slotsOf, Module.slotsOf, hi]
  have hslot : m'.literalSlot? su.digest bytes = m.literalSlot? su.digest bytes := by
    rw [Module.literalSlot?, Module.literalSlot?, hslots, h]
  have hadd : ∀ name, m'.addLiteral su.digest name bytes =
      ({ m' with
          literals := (m.addLiteral su.digest name bytes).1.literals
          interned := (m.addLiteral su.digest name bytes).1.interned },
        (m.addLiteral su.digest name bytes).2) := by
    intro name
    rw [Module.addLiteral, Module.addLiteral, hslots, h, hi]
  rw [literalEntry, literalEntry, h]
  split
  · rw [Module.internLiteral, Module.internLiteral, hslot]
    split
    · next slot _ => exact ⟨slot, m.literals, m.interned, rfl, by rw [← h, ← hi]⟩
    · exact ⟨_, _, _, rfl, hadd _⟩
  · exact ⟨_, _, _, rfl, hadd _⟩

theorem ahead_literalFor (su : Setup) (bytes : List UInt8) :
    InStep (Ahead done ahead) (literalFor su bytes) (literalFor su bytes) := by
  constructor
  intro s t k s' h hrun
  rw [literalFor_apply] at hrun
  cases hrun
  obtain ⟨k, literals, interned, hentry, hentry'⟩ :=
    literalEntry_congr su bytes h.graphs.literals h.graphs.interned
  rw [literalFor_apply, hentry, hentry']
  refine ⟨_, rfl, h.withModule ?_ rfl rfl, trivial⟩
  exact { h.graphs with literals := rfl, interned := rfl }

theorem ahead_calleeEntry (tag : Tag) (callee : String) :
    InStep (Ahead done ahead) (calleeEntry tag callee) (calleeEntry tag callee)
      fun _ => callee ∈ done.map Function.name := by
  constructor
  intro s t entry s' h hrun
  obtain ⟨rfl, f, hf, rfl⟩ := calleeEntry_eq_ok.mp hrun
  rw [Module.function?, h.functions] at hf
  have hmem := List.mem_of_find?_eq_some hf
  refine ⟨t, calleeEntry_eq_ok.mpr ⟨rfl, f, ?_, ?_⟩, h, ?_⟩
  · rw [Module.function?, h.functions_ahead, List.find?_append, hf]
    rfl
  · exact (h.graphs.entry? (h.owned f hmem)).symm
  · have hname : f.name = callee := by simpa using List.find?_some hf
    exact List.mem_map.mpr ⟨f, hmem, hname⟩

theorem ahead_hasResult {callee : String} (hcallee : callee ∈ done.map Function.name) :
    InStep (Ahead done ahead) (hasResult callee) (hasResult callee) := by
  constructor
  intro s t b s' h hrun
  rw [hasResult_apply] at hrun
  cases hrun
  have hnone : (ahead.any fun sig => sig.name == callee && sig.result != .void) = false := by
    rw [List.any_eq_false]
    intro sig hsig
    have hne : sig.name ≠ callee := by
      rintro rfl
      exact (List.nodup_append.mp h.apart).2.2 _ hcallee _ (List.mem_map_of_mem hsig) rfl
    simp [hne]
  rw [hasResult_apply, h.signatures, List.any_append, hnone, Bool.or_false]
  exact ⟨t, rfl, h, trivial⟩

end Ahead

/-- The setup with a feature switched on or off, and all else the same. -/
def Setup.withFeature (su : Setup) (f : Settings.Feature) (on : Bool) : Setup :=
  { su with config := su.config.withFeature f.number on }

theorem Setup.uses_withFeature (su : Setup) (f : Settings.Feature) (on : Bool) :
    (su.withFeature f on).config.uses f =
      ((su.config.features.info? f.number).isSome && on) := by
  rw [withFeature, Settings.Config.uses_withFeature, if_pos rfl]

theorem Setup.uses_withFeature_of_ne (su : Setup) {f g : Settings.Feature} (h : g ≠ f) (on : Bool) :
    (su.withFeature f on).config.uses g = su.config.uses g := by
  rw [withFeature, Settings.Config.uses_withFeature, if_neg h]

theorem literalFor_withFeature (su : Setup) {f : Settings.Feature} (h : .dedupLiterals ≠ f)
    (on : Bool) (bytes : List UInt8) :
    literalFor (su.withFeature f on) bytes = literalFor su bytes := by
  funext s
  rw [literalFor_apply, literalFor_apply, literalEntry, su.uses_withFeature_of_ne h]
  rfl

/-- **Functions that are declared ahead change nothing** in how bodies are lowered. -/
theorem parallel_ahead (su : Setup) (done : List Function) (ahead : List Signature) :
    Parallel (su.withFeature .forwardCalls false) (su.withFeature .forwardCalls true)
      (Ahead done ahead) (· < done.length) (· ∈ done.map Function.name) where
  alike := by
    refine ⟨rfl, ?_, rfl, rfl, rfl⟩
    rw [su.uses_withFeature_of_ne (by decide), su.uses_withFeature_of_ne (by decide)]
  slots h := h.slots
  served h := h.served
  allocated h _ := { h with slots := rfl }
  remarked h r := { h with remarks := congrArg (· ++ [r]) h.remarks }
  answered h r := { h with served := congrArg (· ++ [r]) h.served }
  emitted h pt hpt i _ := h.emit pt hpt i
  opened _ hr := ahead_openBlock hr
  jumped _ target hr := ahead_jump hr target
  literal pt hpt slot bytes := by
    have hemit : ∀ op args, InStep (Ahead done ahead) (emit pt op args) (emit pt op args) := by
      intro op args
      constructor
      rintro s t _ _ h ⟨⟩
      exact ⟨_, rfl, h.emit pt hpt _, trivial⟩
    rw [literalFor_withFeature su (by decide), literalFor_withFeature su (by decide)]
    exact (ahead_literalFor su bytes).bind fun _ _ =>
      (hemit _ _).bind fun _ _ => inStep_pure trivial
  entry := ahead_calleeEntry
  result _ := ahead_hasResult

/-! ## Declarations -/

def State.declare (s : State) (sig : Signature) : State :=
  { s with
    module := declaredModule s.module sig.name
    signatures := s.signatures ++ [sig] }

theorem reserveFunction_iff {tag : Tag} {name : String} {result : ValueType} {s s' : State}
    {g : Nat} : reserveFunction tag name result s = .ok g s' ↔
      s.module.function? name = none ∧ g = s.module.graphs.length ∧
        s' = s.declare ⟨name, tag.label, result⟩ := by
  have hfunctions : (reservedModule s.module).functions = s.module.functions :=
    (reservedModule_spec s.module).2.2.2.2.1
  rw [reserveFunction_apply, Module.addFunction, Module.function?, hfunctions, Module.function?]
  cases s.module.functions.find? fun f => f.name == name with
  | some f => simp
  | none =>
    simp only [Option.isSome_none, Bool.false_eq_true, if_false, EStateM.Result.ok.injEq,
      State.declare, declaredModule, true_and]
    exact ⟨fun h => ⟨h.1.symm, h.2.symm⟩, fun h => ⟨h.1.symm, h.2.symm⟩⟩

section Declarations

variable {done : List Function} {ahead : List Signature} {s t : State} {tag : Tag} {name : String}
  {result : ValueType}

theorem find?_name_eq_none {α : Type} {nameOf : α → String} {l : List α}
    (h : name ∉ l.map nameOf) : (l.find? fun a => nameOf a == name) = none := by
  rw [List.find?_eq_none]
  intro a ha heq
  exact h (List.mem_map.mpr ⟨a, ha, eq_of_beq heq⟩)

theorem Ahead.reserve (h : Ahead done ahead s t) (tag : Tag) (result : ValueType)
    (hnew : name ∉ done.map Function.name ++ ahead.map Signature.name) :
    ∃ g t', reserveFunction tag name result t = .ok g t' ∧
      Ahead done (ahead ++ [⟨name, tag.label, result⟩]) s t' := by
  have hnames : t.module.functions.map Function.name =
      done.map Function.name ++ ahead.map Signature.name := by
    rw [h.functions_ahead, List.map_append, map_name_functionsAhead]
  have hnone : t.module.function? name = none := find?_name_eq_none (hnames ▸ hnew)
  refine ⟨_, _, reserveFunction_iff.mpr ⟨hnone, rfl, rfl⟩, ?_⟩
  constructor
  case graphs =>
    rw [List.length_append]
    exact h.graphs.reserved name
  case owned => exact h.owned
  case functions => exact h.functions
  case functions_ahead =>
    rw [functionsAhead_concat, ← List.append_assoc, ← h.functions_ahead, ← h.graphs.length_ahead]
    rfl
  case signed => exact h.signed
  case signatures =>
    rw [← List.append_assoc, ← h.signatures]
    rfl
  case apart =>
    rw [List.map_append, ← List.append_assoc]
    refine List.nodup_append.mpr ⟨h.apart, List.nodup_singleton _, fun a ha b hb he => ?_⟩
    rw [he, List.mem_singleton.mp hb] at ha
    exact hnew ha
  case slots => exact h.slots
  case remarks => exact h.remarks
  case served => exact h.served

/-- The function that comes next is found in the second state, and declared in the first one. -/
theorem Ahead.declare (h : Ahead done (⟨name, tag.label, result⟩ :: ahead) s t) {g : Nat}
    {s' : State} (hrun : functionGraph tag name result s = .ok g s') :
    g = done.length ∧ functionGraph tag name result t = .ok g t ∧
      Ahead (done ++ [⟨name, g⟩]) ahead s' t := by
  have hnew : name ∉ done.map Function.name := fun hmem =>
    (List.nodup_append.mp h.apart).2.2 _ hmem _ List.mem_cons_self rfl
  have hlength := h.graphs.length
  rcases functionGraph_cases hrun with ⟨-, hmem, -⟩ | hrun
  · exact absurd (List.mem_map_of_mem (h.functions ▸ hmem)) hnew
  obtain ⟨-, rfl, rfl⟩ := reserveFunction_iff.mp hrun
  rw [hlength]
  refine ⟨rfl, ?_, ?_⟩
  · have hfound : t.module.function? name = some ⟨name, done.length⟩ := by
      rw [Module.function?, h.functions_ahead, List.find?_append, find?_name_eq_none hnew]
      simp [functionsAhead]
    have hsigned : t.signatures.find? (fun sig => sig.name == name) =
        some ⟨name, tag.label, result⟩ := by
      rw [h.signatures, List.find?_append, find?_name_eq_none (h.signed ▸ hnew)]
      simp
    rw [functionGraph, get_bind_apply]
    simp only [hfound, hsigned, if_true]
    rfl
  · constructor
    case graphs =>
      rw [List.length_append]
      exact h.graphs.declared name
    case owned =>
      rw [List.length_append]
      refine List.forall_mem_append.mpr ⟨fun f hf => Nat.lt_succ_of_lt (h.owned f hf), ?_⟩
      exact List.forall_mem_singleton.mpr (Nat.lt_succ_self _)
    case functions =>
      rw [← hlength, ← h.functions]
      rfl
    case functions_ahead =>
      rw [h.functions_ahead, functionsAhead, List.append_assoc, List.length_append]
      rfl
    case signed =>
      rw [List.map_append, ← h.signed]
      exact List.map_append
    case signatures =>
      rw [h.signatures]
      exact (List.append_assoc _ [_] _).symm
    case apart =>
      rw [List.map_append, List.append_assoc]
      exact h.apart
    case slots => exact h.slots
    case remarks => exact h.remarks
    case served => exact h.served

/-- What a declaration declares, if it is a function. -/
def signatureOf? : Node → Option Signature
  | .function tag name _ result _ => some ⟨name, tag.label, result⟩
  | _ => none

theorem Ahead.forM_reserve : ∀ (ds : List Node) (ahead : List Signature) (t : State),
    Ahead done ahead s t → (∀ d ∈ ds, IsDecl d) →
    (done.map Function.name ++ (ahead.map Signature.name ++ Scope.functionNames ds)).Nodup →
    ∃ t', ds.forM reserveDecl t = .ok ⟨⟩ t' ∧
      Ahead done (ahead ++ ds.filterMap signatureOf?) s t' := by
  intro ds
  induction ds with
  | nil =>
    intro ahead t h _ _
    exact ⟨t, rfl, by simpa using h⟩
  | cons d ds ih =>
    intro ahead t h hdecl hnames
    rw [List.forall_mem_cons] at hdecl
    cases hdecl.1 with
    | @function tag name params result body hk =>
      have hcons : Scope.functionNames (.function tag name params result body :: ds) =
          name :: Scope.functionNames ds := rfl
      rw [hcons] at hnames
      have hnew : name ∉ done.map Function.name ++ ahead.map Signature.name := by
        intro hmem
        rw [← List.append_assoc] at hnames
        exact (List.nodup_append.mp hnames).2.2 _ hmem _ List.mem_cons_self rfl
      obtain ⟨g, t₁, hreserve, h₁⟩ := h.reserve tag result hnew
      obtain ⟨t', hrun, h'⟩ := ih _ t₁ h₁ hdecl.2 (by simpa using hnames)
      have hfirst : reserveDecl (.function tag name params result body) t = .ok ⟨⟩ t₁ := by
        simp only [reserveDecl, Node.tag?, hk, if_true]
        rw [bind_of_ok hreserve]
        rfl
      refine ⟨t', (bind_of_ok hfirst).trans hrun, ?_⟩
      rw [List.append_assoc] at h'
      exact h'
    | @var tag name type init hk =>
      obtain ⟨t', hrun, h'⟩ := ih ahead t h hdecl.2 hnames
      have hskip : reserveDecl (.var tag name type init) t = .ok ⟨⟩ t := by
        simp [reserveDecl, Node.tag?, hk]
      exact ⟨t', (bind_of_ok hskip).trans hrun, h'⟩

end Declarations

section Program

variable {su : Setup} {done : List Function} {ahead : List Signature} {s t : State}

theorem Ahead.selectDecl {d : Node} (hd : IsDecl d)
    (h : Ahead done ((signatureOf? d).toList ++ ahead) s t) {u : Unit} {s' : State}
    (hrun : Select.selectDecl (su.withFeature .forwardCalls false) d s = .ok u s') :
    ∃ done' t', Select.selectDecl (su.withFeature .forwardCalls true) d t = .ok u t' ∧
      Ahead done' ahead s' t' := by
  cases hd with
  | @function tag name params result body hk =>
    simp only [Select.selectDecl, Node.tag?, hk] at hrun ⊢
    rw [selectFunction_eq, bind_eq_ok] at hrun
    obtain ⟨g, s₁, hgraph, hrun⟩ := hrun
    obtain ⟨rfl, hgraph', h₁⟩ := Ahead.declare h hgraph
    have hg : done.length < (done ++ [(⟨name, done.length⟩ : Function)]).length := by simp
    obtain ⟨t', hrun', h', -⟩ := ((parallel_ahead su _ ahead).selectIn hg tag name params body).run
      s₁ t u s' h₁ hrun
    refine ⟨_, t', ?_, h'⟩
    rw [selectFunction_eq, bind_of_ok hgraph']
    exact hrun'
  | @var tag name type init hk =>
    simp only [Select.selectDecl, Node.tag?, hk] at hrun ⊢
    have hpt : Point.globals.In (· < done.length) := trivial
    obtain ⟨t', hrun', h', -⟩ :=
      ((parallel_ahead su done ahead).selectVar hpt tag name init).run s t u s' h hrun
    exact ⟨done, t', hrun', h'⟩

theorem Ahead.forM_select : ∀ (ds : List Node) (done : List Function) (s t s' : State) (u : Unit),
    (∀ d ∈ ds, IsDecl d) → Ahead done (ds.filterMap signatureOf?) s t →
    ds.forM (Select.selectDecl (su.withFeature .forwardCalls false)) s = .ok u s' →
    ∃ done' t', ds.forM (Select.selectDecl (su.withFeature .forwardCalls true)) t = .ok u t' ∧
      Ahead done' [] s' t' := by
  intro ds
  induction ds with
  | nil =>
    intro done s t s' u _ h hrun
    cases hrun
    exact ⟨done, t, rfl, h⟩
  | cons d ds ih =>
    intro done s t s' u hdecl h hrun
    rw [List.forall_mem_cons] at hdecl
    rw [forM_cons_apply, bind_eq_ok] at hrun
    obtain ⟨v, s₁, hd, hrun⟩ := hrun
    have h : Ahead done ((signatureOf? d).toList ++ ds.filterMap signatureOf?) s t := by
      cases hsig : signatureOf? d <;> simpa [hsig] using h
    obtain ⟨done₁, t₁, hd', h₁⟩ := h.selectDecl hdecl.1 hd
    obtain ⟨done', t', hrun', h'⟩ := ih done₁ s₁ t₁ s' u hdecl.2 h₁ hrun
    exact ⟨done', t', by rw [forM_cons_apply, bind_of_ok hd', hrun'], h'⟩

theorem ahead_init : Ahead [] [] {} {} := by
  have hgraphs : GraphsAhead 0 0 {} {} :=
    ⟨rfl, rfl, fun _ _ => rfl, fun _ _ hlt => absurd hlt (by omega), rfl, rfl, rfl⟩
  exact ⟨hgraphs, by simp, rfl, rfl, rfl, rfl, List.nodup_nil, rfl, rfl, rfl⟩

/-- **Forward calls are a conservative extension.**  A program that is lowered without them is
lowered with them, to a module with the same functions, the same global sequence and the same
literals, with the same slots and the same remarks.  A block has the same place, instructions and
edges in both, so that the modules have the same image, or none for the same reason. -/
theorem select_forwardCalls {root : Node} (hu : root.Unshared)
    (hsel : select (su.withFeature .forwardCalls false) root = .ok () s) :
    ∃ t, select (su.withFeature .forwardCalls true) root = .ok () t ∧
      t.module.functions = s.module.functions ∧ t.module.globals = s.module.globals ∧
      t.module.literals = s.module.literals ∧ t.slots = s.slots ∧ t.remarks = s.remarks ∧
      (∀ r, (t.module.block? r).map Block.content = (s.module.block? r).map Block.content) ∧
      t.module.image = s.module.image := by
  cases hinfo : su.config.features.info? Settings.Feature.forwardCalls.number with
  | none =>
    -- without an entry there is nothing to switch
    have hsame : ∀ on, su.withFeature .forwardCalls on = su := by
      intro on
      rw [Setup.withFeature, Settings.Config.withFeature, Settings.Switches.set_of_none hinfo]
    rw [hsame] at hsel ⊢
    exact ⟨s, hsel, rfl, rfl, rfl, rfl, rfl, fun _ => rfl, rfl⟩
  | some info => ?_
  have hon : ∀ on, (su.withFeature .forwardCalls on).config.uses .forwardCalls = on := by
    intro on
    rw [su.uses_withFeature, hinfo]
    rfl
  obtain ⟨tag, decls, rfl⟩ := select_program hsel
  obtain ⟨hkind, hdecl⟩ := select_isDecl hsel
  have hnames := (select_laid hu hsel).apart
  rw [select_of_kind _ hkind, selectDecls, hon] at hsel ⊢
  obtain ⟨t₀, hreserve, h₀⟩ := ahead_init.forM_reserve decls [] {} hdecl hnames
  obtain ⟨done, t, hrun, h⟩ := Ahead.forM_select decls [] {} t₀ s () hdecl h₀ hsel
  have hcontent : ∀ g, t.module.content g = s.module.content g := by
    intro g
    by_cases hg : g < done.length
    · exact h.graphs.same g hg
    · rw [Module.content_of_le (h.graphs.length_ahead ▸ Nat.le_of_not_lt hg),
        Module.content_of_le (h.graphs.length ▸ Nat.le_of_not_lt hg)]
  have hfunctions : t.module.functions = s.module.functions := by
    rw [h.functions_ahead, h.functions, functionsAhead, List.append_nil]
  refine ⟨t, (bind_of_ok hreserve).trans hrun, hfunctions, h.graphs.globals, h.graphs.literals,
    h.slots, h.remarks, fun r => ?_, Module.image_congr hfunctions h.graphs.globals hcontent⟩
  rw [Module.map_content_block?, Module.map_content_block?, hcontent]

/-- A function, and one that calls it. -/
def relayDecls : List Node :=
  [.function (.nowhere 1 .functionDecl) "one" [] .int
    (.compound (.nowhere 2 .compoundStmt)
      [.ret (.nowhere 3 .returnStmt) (.number (.nowhere 4 .numberExpr) 1)]),
   .function (.nowhere 5 .functionDecl) "show" [] .void
    (.compound (.nowhere 6 .compoundStmt)
      [.ifThen (.nowhere 7 .ifStmt) (.call (.nowhere 8 .callExpr) "one" [])
        (.compound (.nowhere 9 .compoundStmt)
          [.print (.nowhere 10 .printStmt) (.string (.nowhere 11 .stringExpr) [104, 105])])])]

def aheadSetup (on : Bool) (t : Scope.Table) (b : Scope.Bindings) : Setup :=
  (stackSetup t b).withFeature .forwardCalls on

theorem relayDecls_forwardCalls : ∃ t b s s',
    select (aheadSetup false t b) (.program (.nowhere 0 .program) relayDecls) = .ok () s ∧
      select (aheadSetup true t b) (.program (.nowhere 0 .program) relayDecls) = .ok () s' ∧
      s'.module.functions = s.module.functions ∧ s'.slots = s.slots ∧
      s'.module.image = s.module.image := by
  have hlowers :
      lowers (aheadSetup false) (.program (.nowhere 0 .program) relayDecls) = true := by
    decide +kernel
  obtain ⟨t, b, s, -, hsel⟩ := exists_of_lowers hlowers
  have hu : (Node.program (.nowhere 0 .program) relayDecls).Unshared := by decide
  obtain ⟨s', hsel', hfunctions, -, -, hslots, -, -, himage⟩ := select_forwardCalls hu hsel
  exact ⟨t, b, s, s', hsel, hsel', hfunctions, hslots, himage⟩

-- The names of blocks are not the same: the entry of the second function draws its name earlier.
example : [false, true].map (fun on =>
    (lowered? (aheadSetup on) (.program (.nowhere 0 .program) relayDecls)).map fun s =>
      (s.module.blockName ⟨0, 1⟩, s.module.blockName ⟨1, 0⟩)) =
    [some ("Block1", "Block2"), some ("Block2", "Block1")] := by decide +kernel

end Program

end Isel.Select
