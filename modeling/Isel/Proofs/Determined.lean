import Isel.Proofs.ByName
import Isel.Proofs.Operands
import Isel.Proofs.SharedLiterals

/-!
# Listings determine modules

No two blocks of a module that selection makes have the same name, in whichever graphs they are
(`Steps.labelsApart`): names are drawn from one count.  So what a listing shows by name fixes where
each block stands (`SameLayout`), and with it the numbers of blocks and the entries of functions.
Equal listings are therefore listings of modules that look the same by name and have the same
outputs (`select_listing`).

A name stands for one block as long as there is a block (`eq_of_blockName`).  Hooks that put in
simple instructions name no block at all; then all operands and edges lead to blocks
(`Targeted`), and the modules have the same contents and not only the same names.
-/

namespace Isel.Select

open Isel.Flow Isel.Il Isel.Proofs Isel.Settings Isel.Syntax

/-! ## Labels -/

/-- Blocks of different graphs have different names. -/
def LabelsApart (m : Module) : Prop :=
  ∀ {g g' : Nat} {name : String}, name ∈ labels m g → name ∈ labels m g' → g = g'

section Labels

variable {su : Setup} {m m' : Module} {g : Nat} {r r' : BlockRef}

theorem Drawn.fresh (hm : Drawn m) (q : Nat) : generatedName m.namesDrawn ∉ labels m q := by
  obtain ⟨-, draws, hlabels, -, hbound⟩ := hm q
  rw [hlabels]
  intro hmem
  obtain ⟨n, hn, heq⟩ := List.mem_map.mp hmem
  exact absurd (hbound n hn) (generatedName_injective heq ▸ Nat.lt_irrefl _)

theorem LabelsApart.step (hm : LabelsApart m) (hdrawn : Drawn m) (h : Step su m m') :
    LabelsApart m' := by
  rcases h.labels hdrawn with ⟨hsame, -⟩ | ⟨g, -, hnew, -⟩
  · intro q q' name hq hq'
    rw [hsame] at hq hq'
    exact hm hq hq'
  · have hmem : ∀ {q : Nat} {name : String}, name ∈ Select.labels m' q →
        name ∈ Select.labels m q ∨ q = g ∧ name = generatedName m.namesDrawn := by
      intro q name hname
      rw [hnew, List.mem_append] at hname
      refine hname.imp_right fun hname => ?_
      split at hname
      · exact ⟨‹q = g›, List.mem_singleton.mp hname⟩
      · cases hname
    intro q q' name hq hq'
    rcases hmem hq with hold | ⟨rfl, rfl⟩
    · rcases hmem hq' with hold' | ⟨rfl, rfl⟩
      · exact hm hold hold'
      · exact absurd hold (hdrawn.fresh q)
    · rcases hmem hq' with hold' | ⟨rfl, -⟩
      · exact absurd hold' (hdrawn.fresh q')
      · rfl

theorem Steps.labelsApart (h : Steps su {} m) : LabelsApart m := by
  induction h with
  | refl => exact fun hmem _ => absurd hmem List.not_mem_nil
  | tail hsteps hstep ih => exact LabelsApart.step ih (Steps.drawn hsteps) hstep

theorem blockName_eq_getD (m : Module) (r : BlockRef) :
    m.blockName r = ((Select.labels m r.graph)[r.index]?).getD "" := by
  rw [Module.blockName, Select.labels, List.getElem?_map, ← Module.block?]
  cases m.block? r <;> rfl

theorem blockName_generated (h : Steps su {} m) (hr : r.index < m.count r.graph) :
    ∃ n, m.blockName r = generatedName n := by
  obtain ⟨-, draws, hlabels, -, -⟩ := h.drawn r.graph
  have hmem := List.mem_of_getElem? (blockName_eq hr)
  rw [hlabels] at hmem
  obtain ⟨n, -, hn⟩ := List.mem_map.mp hmem
  exact ⟨n, hn.symm⟩

theorem listable_of_steps (h : Steps su {} m) (hnames : ∀ f ∈ m.functions, Plain f.name) :
    Listable m where
  toPlainNames := plainNames_of_steps h hnames
  drawn g b hb := by
    obtain ⟨k, hk, hget⟩ := List.getElem_of_mem hb
    obtain ⟨n, hn⟩ := blockName_generated (r := ⟨g, k⟩) h hk
    have hblock : m.block? ⟨g, k⟩ = some b := List.getElem?_eq_some_iff.mpr ⟨hk, hget⟩
    rw [Module.blockName, hblock] at hn
    exact ⟨n, hn⟩
  placed := h.literals
  slots := h.indexed.slot

/-- A name is that of one block at most. -/
theorem eq_of_blockName (h : Steps su {} m) (hname : m.blockName r = m.blockName r') :
    r = r' ∨ m.count r.graph ≤ r.index ∧ m.count r'.graph ≤ r'.index := by
  have hsome : ∀ {r r' : BlockRef}, r.index < m.count r.graph → m.count r'.graph ≤ r'.index →
      m.blockName r ≠ m.blockName r' := by
    intro r r' hr hr' heq
    have hnone : m.block? r' = none := List.getElem?_eq_none hr'
    obtain ⟨n, hn⟩ := blockName_generated h hr
    rw [hn, Module.blockName, hnone] at heq
    exact absurd (congrArg (·.toList.head?) heq) (by simp [generatedName])
  rcases Nat.lt_or_ge r.index (m.count r.graph) with hr | hr <;>
    rcases Nat.lt_or_ge r'.index (m.count r'.graph) with hr' | hr'
  · have hget := blockName_eq hr
    have hget' := blockName_eq hr'
    rw [← hname] at hget'
    have hgraph : r.graph = r'.graph :=
      h.labelsApart (List.mem_of_getElem? hget) (List.mem_of_getElem? hget')
    rw [← hgraph] at hget'
    have hlt : r.index < (Select.labels m r.graph).length := by
      rw [Select.labels, List.length_map]
      exact hr
    have hindex : r.index = r'.index :=
      (List.getElem?_inj hlt (labels_nodup h.drawn r.graph)).mp (hget.trans hget'.symm)
    left
    obtain ⟨g, k⟩ := r
    obtain ⟨g', k'⟩ := r'
    obtain rfl : g = g' := hgraph
    obtain rfl : k = k' := hindex
    rfl
  · exact absurd hname (hsome hr hr')
  · exact absurd hname.symm (hsome hr' hr)
  · exact .inr ⟨hr, hr'⟩

end Labels

/-! ## Layout -/

/-- The modules have the same functions, and graphs have blocks of the same names. -/
structure SameLayout (m m' : Module) : Prop where
  functions : m'.functions = m.functions
  labels : ∀ g, Select.labels m' g = Select.labels m g

section Layout

variable {su : Setup} {m m' : Module} {r r' : BlockRef} {t t' : Option BlockRef}

theorem blocks_of_named (h : m.named = m'.named) (hfunctions : m'.functions = m.functions)
    {f : Flow.Function} (hf : f ∈ m.functions) :
    (m.graph f.graph).blocks.map (Block.named m.blockName) =
      (m'.graph f.graph).blocks.map (Block.named m'.blockName) := by
  have hshown : m.functions.map (fun f => (f.name,
      (m.graph f.graph).blocks.map (Block.named m.blockName))) = m'.functions.map fun f =>
        (f.name, (m'.graph f.graph).blocks.map (Block.named m'.blockName)) :=
    congrArg NamedModule.functions h
  rw [hfunctions] at hshown
  exact (Prod.mk.inj (List.map_inj_left.mp hshown f hf)).2

/-- What a module looks like by name fixes its layout, if functions own the graphs in order. -/
theorem sameLayout_of_named (hm : Owned m) (hm' : Owned m') (h : m.named = m'.named) :
    SameLayout m m' := by
  have hnames : m'.functions.map Flow.Function.name = m.functions.map Flow.Function.name :=
    map_eq_of_forall₂ (Module.functions_alike h) And.left
  have hcount : m'.graphs.length = m.graphs.length := by
    have hlength := congrArg List.length hnames
    have hown := congrArg List.length hm
    have hown' := congrArg List.length hm'
    simp only [List.length_map, List.length_range] at hlength hown hown'
    omega
  have hgraphs : m'.functions.map Flow.Function.graph = m.functions.map Flow.Function.graph := by
    rw [hm, hm', hcount]
  have hfunctions : m'.functions = m.functions := by
    have hpairs := congrArg₂ List.zip hnames hgraphs
    rw [List.zip_map', List.zip_map'] at hpairs
    refine List.map_injective_iff.mpr (fun f f' hf => ?_) hpairs
    cases f
    cases f'
    cases hf
    rfl
  refine ⟨hfunctions, fun g => ?_⟩
  rcases Nat.lt_or_ge g m.graphs.length with hg | hg
  · obtain ⟨f, hf, rfl⟩ := hm.mem.mp hg
    have hlabels := congrArg (List.map NamedBlock.name) (blocks_of_named h hfunctions hf).symm
    rwa [List.map_map, List.map_map] at hlabels
  · have hempty : ∀ {m : Module}, m.graphs.length ≤ g → Select.labels m g = [] := by
      intro m hg
      rw [Select.labels, Module.graph, List.getElem?_eq_none hg]
      rfl
    rw [hempty hg, hempty (hcount ▸ hg)]

namespace SameLayout

theorem blockName (h : SameLayout m m') : m'.blockName = m.blockName := by
  funext r
  rw [blockName_eq_getD, blockName_eq_getD, h.labels]

theorem count (h : SameLayout m m') (g : Nat) : m'.count g = m.count g := by
  have hlength : ∀ m : Module, m.count g = (Select.labels m g).length :=
    fun m => (List.length_map _).symm
  rw [hlength, hlength, h.labels]

theorem resolver (h : SameLayout m m') : m'.resolver = m.resolver := by
  have hrefs : ∀ g, m'.blockRefs g = m.blockRefs g := fun g =>
    congrArg (fun n => (List.range n).map fun k => (⟨g, k⟩ : BlockRef)) (h.count g)
  simp only [Module.resolver, Module.numbering, h.functions, hrefs]

theorem functionAt? (h : SameLayout m m') (t : Option BlockRef) :
    m'.functionAt? t = m.functionAt? t := by
  have hempty : ∀ (m : Module) (g : Nat),
      (m.graph g).blocks.isEmpty = (Select.labels m g).isEmpty := fun m g => List.isEmpty_map.symm
  simp only [Module.functionAt?, Module.entry?, h.functions, hempty, h.labels]

end SameLayout

theorem resolver_eq_none (h : Steps su {} m) (hr : m.count r.graph ≤ r.index) :
    m.resolver r = none := by
  have hmem : r ∉ m.listed := by
    intro hmem
    obtain ⟨f, -, hf⟩ := List.mem_flatMap.mp hmem
    obtain ⟨hgraph, hlt⟩ := Module.mem_blockRefs.mp hf
    rw [← hgraph] at hlt
    exact absurd hlt (Nat.not_lt_of_le hr)
  have hplace : m.place? r = none := List.idxOf?_eq_none_iff.mpr hmem
  rw [Module.resolver_eq h.owned.nodup, addresses, hplace]
  rfl

theorem resolver_eq_of_blockName (h : Steps su {} m) (hname : m.blockName r = m.blockName r') :
    m.resolver r' = m.resolver r := by
  rcases eq_of_blockName h hname with rfl | ⟨hr, hr'⟩
  · rfl
  · rw [resolver_eq_none h hr, resolver_eq_none h hr']

theorem functionAt?_eq_none (hr : m.count r.graph ≤ r.index) : m.functionAt? (some r) = none := by
  rw [Module.functionAt?, List.find?_eq_none]
  intro f _ hentry
  rw [beq_iff_eq, Module.entry?] at hentry
  split at hentry
  · cases hentry
  · next hblocks =>
    cases hentry
    exact hblocks (List.isEmpty_iff.mpr (List.length_eq_zero_iff.mp (Nat.le_zero.mp hr)))

theorem functionAt?_eq_of_blockName (h : Steps su {} m)
    (hname : t.map m.blockName = t'.map m.blockName) : m.functionAt? t' = m.functionAt? t := by
  obtain ⟨rfl, rfl⟩ | ⟨r, r', rfl, rfl, hsame⟩ := eq_none_or_names_eq hname
  · rfl
  · rcases eq_of_blockName h hsame with rfl | ⟨hr, hr'⟩
    · rfl
    · rw [functionAt?_eq_none hr, functionAt?_eq_none hr']

end Layout

/-! ## References -/

/-- All blocks that operands and edges lead to are there. -/
structure Targeted (m : Module) : Prop where
  operands : ∀ i, Has m i → ∀ t, .block (some t) ∈ i.args → t.index < m.count t.graph
  edges : ∀ r t, some t ∈ m.edges r → t.index < m.count t.graph

theorem targeted_of_select {su : Setup} {root : Node} {s : State} (hh : HooksEmit su Simple)
    (hsel : select su root = .ok () s) : Targeted s.module where
  operands _ hi _ ht := select_targets hh hsel hi ht
  edges r t ht := by
    obtain ⟨q, heq, -, hgraph, hlt⟩ := (select_steps hsel).edges r _ ht
    cases heq
    rwa [hgraph]

section References

variable {su : Setup} {m m' : Module}

/-- References that are read by the same name are the same, if they lead to blocks. -/
theorem target_eq_of_name (h : Steps su {} m) {t t' : Option BlockRef}
    (hname : t.map m.blockName = t'.map m.blockName)
    (ht : ∀ r, t = some r → r.index < m.count r.graph) : t = t' := by
  obtain ⟨rfl, rfl⟩ | ⟨r, r', rfl, rfl, hsame⟩ := eq_none_or_names_eq hname
  · rfl
  · rcases eq_of_blockName h hsame with rfl | ⟨hr, -⟩
    · rfl
    · exact absurd (ht r rfl) (Nat.not_lt_of_le hr)

theorem instr_eq_of_alike (h : Steps su {} m) (hm : Targeted m) {i i' : Instr} (hi : Has m i)
    (halike : i.Alike m.blockName m.blockName i') : i' = i := by
  have hargs : i'.args = i.args := by
    refine eq_of_forall₂ halike.args fun x hx x' halike => ?_
    cases halike with
    | block ht => rw [target_eq_of_name h ht fun r hr => hm.operands i hi r (hr ▸ hx)]
    | _ => rfl
  cases i
  cases i'
  rw [Instr.mk.injEq]
  exact ⟨halike.op, hargs⟩

theorem instrs_eq_of_named (h : Steps su {} m) (hm : Targeted m) {is is' : List Instr}
    (hnamed : is'.map (Instr.named m.blockName) = is.map (Instr.named m.blockName))
    (his : ∀ i ∈ is, Has m i) : is' = is :=
  eq_of_forall₂ (forall₂_of_map_eq (fun _ _ => Instr.alike_of_named) hnamed.symm)
    fun i hi _ halike => instr_eq_of_alike h hm (his i hi) halike

theorem block_eq_of_named (h : Steps su {} m) (hm : Targeted m) {r : BlockRef} {b b' : Block}
    (hb : m.block? r = some b) (hnamed : b.named m.blockName = b'.named m.blockName) : b' = b := by
  simp only [Block.named, NamedBlock.mk.injEq] at hnamed
  obtain ⟨hname, hinstrs, hsuccessors⟩ := hnamed
  have hcode : m.code r = b.instrs := by
    rw [Module.code, hb]
    rfl
  have his : b'.instrs = b.instrs :=
    instrs_eq_of_named h hm hinstrs.symm fun i hi => ⟨.block r, show i ∈ m.code r from hcode ▸ hi⟩
  have hts : b'.successors = b.successors := by
    refine eq_of_forall₂ (forall₂_of_map_eq (fun _ _ => id) hsuccessors) fun t ht t' hname => ?_
    rw [← Module.edges_of_block? hb] at ht
    exact (target_eq_of_name h hname fun q hq => hm.edges r q (hq ▸ ht)).symm
  cases b
  cases b'
  rw [Block.mk.injEq]
  exact ⟨hname.symm, his, hts⟩

/-- **Modules that look the same have the same contents**, if all references of one lead to
blocks. -/
theorem contents_eq_of_named (h : Steps su {} m) (hm : Targeted m) {su' : Setup}
    (h' : Steps su' {} m') (hnamed : m.named = m'.named) :
    m'.literals = m.literals ∧ m'.globals = m.globals ∧ m'.functions = m.functions ∧
      m'.graphs = m.graphs := by
  have hlayout := sameLayout_of_named h.owned h'.owned hnamed
  have hnames := hlayout.blockName
  refine ⟨(congrArg NamedModule.literals hnamed).symm, ?_, hlayout.functions, ?_⟩
  · have hglobals : m.globals.map (Instr.named m.blockName) =
        m'.globals.map (Instr.named m'.blockName) := congrArg NamedModule.globals hnamed
    rw [hnames] at hglobals
    exact instrs_eq_of_named h hm hglobals.symm fun i hi => ⟨.globals, hi⟩
  · have hlength : m'.graphs.length = m.graphs.length := by
      have hranges := (h'.owned.symm.trans (by rw [hlayout.functions])).trans h.owned
      simpa using congrArg List.length hranges
    refine List.ext_getElem hlength fun g hg' hg => ?_
    have hget : ∀ {m : Module} (hg : g < m.graphs.length), m.graphs[g] = m.graph g := by
      intro m hg
      rw [Module.graph, List.getElem?_eq_getElem hg]
      rfl
    have hblocks : (m'.graph g).blocks = (m.graph g).blocks := by
      obtain ⟨f, hf, rfl⟩ := h.owned.mem.mp hg
      have hshown := blocks_of_named hnamed hlayout.functions hf
      rw [hnames] at hshown
      refine eq_of_forall₂ (forall₂_of_map_eq (fun _ _ => id) hshown) fun b hb b' hsame => ?_
      obtain ⟨k, hk⟩ := List.getElem?_of_mem hb
      exact block_eq_of_named h hm (r := ⟨f.graph, k⟩) hk hsame
    have hown : (m'.graph g).ownNames = (m.graph g).ownNames := by
      rw [(h.drawn g).1, (h'.drawn g).1]
    rw [hget, hget]
    cases hm : m.graph g
    cases hm' : m'.graph g
    rw [hm, hm'] at hblocks hown
    rw [Flow.Graph.mk.injEq]
    exact ⟨hblocks, hown⟩

end References

/-- **The listing determines the module.**  Modules with the same listing have the same literals
at the same places, the same global sequence, and the same functions in the same order, with blocks
that have the same names, instructions and edges.  So they have the same outputs.  Where hooks put
in simple instructions only, no reference is without a block, and graphs are the same block by
block. -/
theorem select_listing {su su' : Setup} {root root' : Node} {s s' : State} {text : String}
    (hsel : select su root = .ok () s) (hsel' : select su' root' = .ok () s')
    (hnames : ∀ f ∈ s.module.functions, Plain f.name)
    (hnames' : ∀ f ∈ s'.module.functions, Plain f.name)
    (htext : s.module.listing? = some text) (htext' : s'.module.listing? = some text) :
    s'.module.named = s.module.named ∧ s'.module.encoded = s.module.encoded ∧
      (∀ c : Config, written c s'.module = written c s.module) ∧
      (HooksEmit su Simple →
        s'.module.literals = s.module.literals ∧ s'.module.globals = s.module.globals ∧
          s'.module.functions = s.module.functions ∧ s'.module.graphs = s.module.graphs) := by
  have hsteps := select_steps hsel
  have hsteps' := select_steps hsel'
  have hlisting : ∀ {m : Module}, m.listing? = some text → m.listing = text := by
    intro m h
    unfold Module.listing? at h
    split at h
    · cases h
    · exact Option.some.inj h
  have hnamed : s.module.named = s'.module.named :=
    Module.named_eq_of_listing (listable_of_steps hsteps hnames) (listable_of_steps hsteps' hnames')
      ((hlisting htext).trans (hlisting htext').symm)
  have hlayout := sameLayout_of_named hsteps.owned hsteps'.owned hnamed
  have hresolve : ∀ {r r'}, s.module.blockName r = s'.module.blockName r' →
      s'.module.resolver r' = s.module.resolver r := by
    intro r r' hname
    rw [hlayout.blockName] at hname
    rw [hlayout.resolver]
    exact resolver_eq_of_blockName hsteps hname
  have hentries : ∀ {t t' : Option BlockRef},
      t.map s.module.blockName = t'.map s'.module.blockName →
      (s'.module.functionAt? t').map Flow.Function.name =
        (s.module.functionAt? t).map Flow.Function.name := by
    intro t t' hname
    rw [hlayout.blockName] at hname
    rw [hlayout.functionAt?, functionAt?_eq_of_blockName hsteps hname]
  exact ⟨hnamed.symm, encoded_eq hnamed hresolve, written_eq hnamed hentries, fun hhooks =>
    contents_eq_of_named hsteps (targeted_of_select hhooks hsel) hsteps' hnamed⟩

/-- A function that declares a variable and prints a string over and over again while it is set. -/
def repeatingDecls (name : String) : List Node :=
  [.function (.nowhere 1 .functionDecl) "f" [] .void
    (.compound (.nowhere 2 .compoundStmt)
      [.var (.nowhere 3 .varDecl) name .int (.number (.nowhere 4 .numberExpr) 1),
       .loop (.nowhere 5 .whileStmt) (.ident (.nowhere 6 .identExpr) name)
        (.compound (.nowhere 7 .compoundStmt)
          [.print (.nowhere 8 .printStmt) (.string (.nowhere 9 .stringExpr) [97])])])]

/-- Two runs in which the variable has another name and strings have other digests. -/
theorem repeatingDecls_listing : ∃ t b t' b' s s' text,
    select (stackSetup t b) (.program (.nowhere 0 .program) (repeatingDecls "x")) = .ok () s ∧
    select (collidingSetup t' b') (.program (.nowhere 0 .program) (repeatingDecls "y")) =
      .ok () s' ∧
    s.module.listing? = some text ∧ s'.module.listing? = some text ∧ s'.module ≠ s.module ∧
    s'.module.named = s.module.named ∧ s'.module.encoded = s.module.encoded ∧
    (∀ c : Config, written c s'.module = written c s.module) ∧
    s'.module.literals = s.module.literals ∧ s'.module.globals = s.module.globals ∧
    s'.module.functions = s.module.functions ∧ s'.module.graphs = s.module.graphs := by
  have hruns : ((lowered? stackSetup (.program (.nowhere 0 .program) (repeatingDecls "x"))).bind
      fun s => (lowered? collidingSetup
        (.program (.nowhere 0 .program) (repeatingDecls "y"))).map fun s' =>
          decide (s.module.listing?.isSome ∧ s'.module.listing? = s.module.listing? ∧
            s'.module ≠ s.module ∧ (∀ f ∈ s.module.functions, Plain f.name) ∧
            ∀ f ∈ s'.module.functions, Plain f.name)) = some true := by
    decide +kernel
  obtain ⟨s, hs, hruns⟩ := Option.bind_eq_some_iff.mp hruns
  obtain ⟨s', hs', hfacts⟩ := Option.map_eq_some_iff.mp hruns
  obtain ⟨hsome, hsame, hne, hnames, hnames'⟩ := of_decide_eq_true hfacts
  obtain ⟨text, htext⟩ := Option.isSome_iff_exists.mp hsome
  obtain ⟨t, b, -, hsel⟩ := exists_of_lowered? hs
  obtain ⟨t', b', -, hsel'⟩ := exists_of_lowered? hs'
  have htext' := hsame.trans htext
  have hhooks : HooksEmit (stackSetup t b) Simple := fun i ⟨_, _, ho, hi⟩ =>
    simple_of_stack rfl ho i hi
  obtain ⟨hnamed, hencoded, hwritten, hcontents⟩ :=
    select_listing hsel hsel' hnames hnames' htext htext'
  exact ⟨t, b, t', b', s, s', text, hsel, hsel', htext, htext', hne, hnamed, hencoded, hwritten,
    hcontents hhooks⟩

end Isel.Select
