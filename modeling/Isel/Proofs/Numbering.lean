import Mathlib.Algebra.GroupWithZero.Nat
import Mathlib.Algebra.BigOperators.Group.List.Basic
import Mathlib.Data.List.Perm.Basic
import Mathlib.Data.List.Sort
import Isel.Proofs.Sections
import Isel.Proofs.WellFormed

/-!
# Blocks are numbered

How many blocks a program is lowered to, and which names they have: `select_numbered`.

* `FunctionCode.count`: a function has its entry, one block for each compound and each `if` of
  its body, and two for each loop.
* `Steps.names_perm`: each step names at most one block, with the number that comes next, so the
  names in a module are those of the numbers that were drawn, each once.
* `Ordered`: without forward calls a function is declared when it is lowered, so all blocks in
  front of it are there already and its own take the numbers that follow.
-/

namespace Isel.Syntax.Node

/-! ## What opens blocks -/

/-- How often a payload of the kind stands in the tree. -/
def countKind (n : Node) (kind : Kind) : Nat :=
  n.nodes.countP fun m => m.payloadKind? == some kind

/-- The blocks that lowering opens for the node itself. -/
def opens : Node → Nat
  | .compound .. | .ifThen .. => 1
  | .loop .. => 2
  | _ => 0

/-- The blocks that lowering opens for the tree. -/
def opened (n : Node) : Nat := (n.nodes.map opens).sum

theorem opened_eq (n : Node) : n.opened = n.opens + (n.parts.map opened).sum := by
  have hself : ((if n.isAbsent then [] else [n]).map opens).sum = n.opens := by
    cases n <;> rfl
  rw [opened, nodes_eq, List.map_append, List.sum_append, hself, List.map_flatMap,
    List.flatMap, List.sum_flatten, List.map_map]
  rfl

theorem opened_eq_countKind (n : Node) : n.opened =
    n.countKind .compoundStmt + n.countKind .ifStmt + 2 * n.countKind .whileStmt := by
  have hall : ∀ ns : List Node, (ns.map opens).sum =
      (ns.countP fun m => m.payloadKind? == some .compoundStmt) +
        (ns.countP fun m => m.payloadKind? == some .ifStmt) +
        2 * ns.countP fun m => m.payloadKind? == some .whileStmt := by
    intro ns
    induction ns with
    | nil => rfl
    | cons m ns ih =>
      rw [List.map_cons, List.sum_cons, ih, List.countP_cons, List.countP_cons, List.countP_cons]
      cases m <;> simp [opens, payloadKind?] <;> omega
  exact hall n.nodes

theorem IsExpr.opened {n : Node} (h : n.IsExpr) : n.opened = 0 := by
  refine List.sum_eq_zero fun k hk => ?_
  obtain ⟨m, hm, rfl⟩ := List.mem_map.mp hk
  cases Select.isExpr_of_mem_nodes n h m hm <;> rfl

def functionBodies (decls : List Node) : List Node :=
  decls.filterMap fun
    | .function _ _ _ _ body => some body
    | _ => none

end Isel.Syntax.Node

namespace Isel.Select

open Isel.Flow Isel.Syntax Isel.Scope Isel.Proofs
open Isel.Il (generatedName_injective)
open Isel.Syntax.Node (functionBodies)

section Counts

variable {su : Setup} {fin : State} {g : Nat} {B : Blocks}

theorem Piece.opened {n : Node} {c : List Instr} (h : Piece su fin n c) : n.opened = 0 := by
  have hexpr : ∀ {n slot c}, ExprCode su fin n slot c → n.opened = 0 := fun hcode =>
    (isExpr_of_exprCode _ _ _ hcode).opened
  cases h with
  | expr hcode => exact hexpr hcode
  | noVar | leave => simp [Node.opened_eq, Node.parts, Node.opens]
  | scan => simp [Node.opened_eq, Node.parts, Node.opens]
  | var hcode | ret hcode | print hcode =>
    rw [Node.opened_eq]
    simp [Node.parts, Node.opens, hexpr hcode]

/-- Statements stand in the block that they begin in and in those that they open. -/
theorem Laid.opened {ns : List Node} {i j : Nat} {rest rest' : List Instr}
    (h : Laid su fin g B ns i rest j rest') : j = i + (ns.map Node.opened).sum := by
  have hbody : ∀ tag stmts,
      (Node.compound tag stmts).opened = 1 + (stmts.map Node.opened).sum :=
    fun tag stmts => Node.opened_eq _
  have htest : ∀ {cond slot c}, ExprCode su fin cond slot c → cond.opened = 0 := fun hcode =>
    (Piece.expr hcode).opened
  induction h with
  | nil => rfl
  | piece hp _ ih => rw [List.map_cons, List.sum_cons, hp.opened, Nat.zero_add, ih]
  | @compound tag stmts ns _ _ _ _ _ _ _ ih₁ ih₂ =>
    rw [List.map_cons, List.sum_cons, hbody]
    omega
  | @ifThen tag btag cond stmts ns _ _ _ _ _ _ hcond _ _ ih₁ ih₂ =>
    have hself : (Node.ifThen tag cond (.compound btag stmts)).opened =
        1 + (cond.opened + ((Node.compound btag stmts).opened + 0)) := Node.opened_eq _
    rw [List.map_cons, List.sum_cons, hself, htest hcond, hbody]
    omega
  | @loop tag btag cond stmts ns _ _ _ _ _ _ hcond _ _ _ ih₁ ih₂ =>
    have hself : (Node.loop tag cond (.compound btag stmts)).opened =
        2 + (cond.opened + ((Node.compound btag stmts).opened + 0)) := Node.opened_eq _
    rw [List.map_cons, List.sum_cons, hself, htest hcond, hbody]
    omega

theorem FunctionCode.count {n : Nat} {params : List Node} {body : Node}
    (h : FunctionCode su fin g B n params body) : n = 1 + body.opened := by
  obtain ⟨tag, stmts, slots, j, rfl, -, -, hat, rfl⟩ := h
  have hj := (laid_of_stmtsAt hat).opened
  rw [Node.opened_eq, Node.parts, Node.opens]
  omega

theorem Lowered.functionNames_perm {decls : List Node} (h : Lowered su decls decls fin) :
    (fin.module.functions.map Function.name).Perm (functionNames decls) := by
  refine (List.perm_ext_iff_of_nodup h.names h.apart).mpr fun name =>
    ⟨fun hname => ?_, fun hname => ?_⟩
  · rw [← h.signed] at hname
    obtain ⟨sig, hsig, rfl⟩ := List.mem_map.mp hname
    obtain ⟨tag, params, body, hd⟩ := h.sources sig hsig
    exact mem_functionNames hd
  · obtain ⟨d, hd, hname⟩ := List.mem_filterMap.mp hname
    cases d with
    | function tag _ params result body =>
      cases hname
      obtain ⟨g, hmem, -⟩ := h.functions tag name params result body hd
      exact List.mem_map.mpr ⟨_, hmem, rfl⟩
    | _ => cases hname

theorem Lowered.sum_count {decls : List Node} (h : Lowered su decls decls fin) :
    (fin.module.functions.map fun f => fin.module.count f.graph).sum =
      ((functionBodies decls).map fun body => 1 + body.opened).sum := by
  -- Functions are matched with their declarations by name.
  let byName (name : String) : Nat :=
    (fin.module.function? name).elim 0 fun f => fin.module.count f.graph
  have hbyName : ∀ {name g}, ⟨name, g⟩ ∈ fin.module.functions →
      byName name = fin.module.count g := by
    intro name g hmem
    simp only [byName, function?_of_mem hmem h.names, Option.elim_some]
  have hbodies : (functionNames decls).map byName =
      (functionBodies decls).map fun body => 1 + body.opened := by
    rw [functionNames, functionBodies, List.map_filterMap, List.map_filterMap]
    refine List.filterMap_congr fun d hd => ?_
    cases d with
    | function tag name params result body =>
      obtain ⟨g, hmem, hcode⟩ := h.functions tag name params result body hd
      have hcount := (hcode fin (Grows.refl fin)).count
      rw [Option.map_some, Option.map_some, hbyName hmem, hcount]
    | _ => rfl
  calc (fin.module.functions.map fun f => fin.module.count f.graph).sum
      = ((fin.module.functions.map Function.name).map byName).sum := by
        rw [List.map_map]
        congr 1
        exact List.map_congr_left fun f hf => (hbyName (g := f.graph) hf).symm
    _ = ((functionNames decls).map byName).sum := (h.functionNames_perm.map byName).sum_eq
    _ = _ := by rw [hbodies]

end Counts

/-! ## Names -/

theorem perm_flatMap_append {α β : Type} {l : List α} {f f' : α → List β} {a : α} {b : β}
    (hl : l.Nodup) (ha : a ∈ l) (hself : f' a = f a ++ [b]) (hother : ∀ c, c ≠ a → f' c = f c) :
    (l.flatMap f').Perm (l.flatMap f ++ [b]) := by
  obtain ⟨before, after, rfl⟩ := List.append_of_mem ha
  have hne := List.nodup_middle.mp hl
  rw [List.nodup_cons, List.mem_append, not_or] at hne
  have hsame : ∀ {m : List α}, a ∉ m → m.flatMap f' = m.flatMap f := fun hm =>
    List.flatMap_congr fun c hc => hother c fun heq => hm (heq ▸ hc)
  rw [List.flatMap_append, List.flatMap_append, List.flatMap_cons, List.flatMap_cons,
    hsame hne.1.1, hsame hne.1.2, hself, List.append_assoc, List.append_assoc, List.append_assoc]
  exact List.Perm.append_left _ (List.Perm.append_left _ List.perm_append_comm)

/-- The names of all blocks, graph by graph. -/
def allLabels (m : Module) : List String := (List.range m.graphs.length).flatMap (labels m)

section Names

variable {su : Setup} {m m' : Module}

theorem labels_of_graphs_le {g : Nat} (h : m.graphs.length ≤ g) : labels m g = [] := by
  rw [labels, Module.graph, List.getElem?_eq_none h]
  rfl

theorem allLabels_eq {n : Nat} (h : m.graphs.length ≤ n) :
    (List.range n).flatMap (labels m) = allLabels m := by
  obtain ⟨k, rfl⟩ := Nat.exists_eq_add_of_le h
  rw [List.range_add, List.flatMap_append, allLabels]
  refine (congrArg _ (List.flatMap_eq_nil_iff.mpr fun g hg => ?_)).trans (List.append_nil _)
  obtain ⟨k, -, rfl⟩ := List.mem_map.mp hg
  exact labels_of_graphs_le (Nat.le_add_right _ k)

theorem Owned.length (hm : Owned m) : m.graphs.length = m.functions.length := by
  have hlength := congrArg List.length hm
  rw [List.length_map, List.length_range] at hlength
  exact hlength.symm

theorem Owned.graphs_le (hm : Owned m) (h : Step su m m') :
    m.graphs.length ≤ m'.graphs.length := by
  rw [hm.length, (hm.step h).length]
  rcases h.functions with hsame | ⟨name, -, rfl⟩
  · rw [hsame]
  · simp [declaredModule]

/-- **The names in a module** are those of the numbers that were drawn, each once. -/
theorem Steps.names_perm (h : Steps su {} m) :
    (allLabels m).Perm ((List.range m.namesDrawn).map generatedName) := by
  induction h with
  | refl => exact .refl _
  | @tail m m' hsteps hstep ih =>
    have hle : m.graphs.length ≤ m'.graphs.length := (Steps.owned hsteps).graphs_le hstep
    rw [← allLabels_eq hle] at ih
    rcases hstep.labels (Steps.drawn hsteps) with ⟨hsame, hdrawn⟩ | ⟨g, hg, hnew, hdrawn⟩
    · have hlabels : Select.labels m' = Select.labels m := funext hsame
      rwa [allLabels, hlabels, hdrawn]
    · have hone : (allLabels m').Perm
          ((List.range m'.graphs.length).flatMap (Select.labels m) ++
            [generatedName m.namesDrawn]) := by
        refine perm_flatMap_append List.nodup_range (List.mem_range.mpr hg) ?_ fun q hq => ?_
        · rw [hnew, if_pos rfl]
        · rw [hnew, if_neg hq, List.append_nil]
      rw [hdrawn, List.range_succ, List.map_append]
      exact hone.trans (ih.append_right _)

theorem Steps.labels_grow (h : Steps su {} m) (h' : Steps su m m') (g : Nat) :
    labels m g <+: labels m' g := by
  induction h' with
  | refl => exact List.prefix_rfl
  | @tail m₁ m₂ hsteps hstep ih =>
    refine ih.trans ?_
    rcases hstep.labels (Steps.drawn (h.trans hsteps)) with ⟨hsame, -⟩ | ⟨q, -, hnew, -⟩
    · simp only [hsame, List.prefix_rfl]
    · rw [hnew]
      exact List.prefix_append _ _

theorem length_labels (m : Module) (g : Nat) : (labels m g).length = m.count g :=
  List.length_map _

theorem Steps.length_allLabels (h : Steps su {} m) : (allLabels m).length = m.namesDrawn := by
  rw [h.names_perm.length_eq, List.length_map, List.length_range]

theorem Owned.flatMap_labels (hm : Owned m) :
    (m.functions.flatMap fun f => labels m f.graph) = allLabels m := by
  rw [allLabels, ← hm, List.flatMap_map]

theorem Owned.sum_count (hm : Owned m) :
    (m.functions.map fun f => m.count f.graph).sum = (allLabels m).length := by
  rw [← hm.flatMap_labels, List.length_flatMap]
  simp only [length_labels]

end Names

/-! ## Names in order -/

section Order

variable {su : Setup} {m m' : Module}

theorem Steps.labels_same (h : Steps su {} m) (h' : Steps su m m') {g : Nat}
    (hcount : m'.count g = m.count g) : labels m' g = labels m g := by
  refine ((h.labels_grow h' g).eq_of_length ?_).symm
  rw [length_labels, length_labels, hcount]

/-- Where only a new graph gets blocks, they take the names that follow. -/
theorem Steps.allLabels_next (h : Steps su {} m) (h' : Steps su m m')
    (hgraphs : m'.graphs.length = m.graphs.length + 1)
    (hcount : ∀ g, g < m.graphs.length → m'.count g = m.count g)
    (hnames : allLabels m = (List.range m.namesDrawn).map generatedName) :
    allLabels m' = (List.range m'.namesDrawn).map generatedName := by
  have hsteps : Steps su {} m' := h.trans h'
  obtain ⟨-, draws, hdraws, hsorted, -⟩ := hsteps.drawn m.graphs.length
  have hsplit : allLabels m' = (List.range m.namesDrawn ++ draws).map generatedName := by
    rw [List.map_append, ← hnames, ← hdraws, allLabels, hgraphs, List.range_succ,
      List.flatMap_append, List.flatMap_singleton, allLabels]
    refine congrArg (· ++ _) (List.flatMap_congr fun g hg => ?_)
    exact h.labels_same h' (hcount g (List.mem_range.mp hg))
  have hperm : (List.range m.namesDrawn ++ draws).Perm (List.range m'.namesDrawn) := by
    rw [← List.map_perm_map_iff generatedName_injective, ← hsplit]
    exact hsteps.names_perm
  -- No number is drawn twice, so those of the new graph are above the others.
  have hnodup := hperm.nodup_iff.mpr List.nodup_range
  have hascending : (List.range m.namesDrawn ++ draws).Pairwise (· < ·) := by
    refine List.pairwise_append.mpr ⟨List.pairwise_lt_range, hsorted, fun k hk n hn => ?_⟩
    have hnot : n ∉ List.range m.namesDrawn := fun hmem =>
      (List.nodup_append'.mp hnodup).2.2 hmem hn
    rw [List.mem_range] at hk hnot
    omega
  rw [hsplit, hperm.eq_of_pairwise' hascending List.pairwise_lt_range]

end Order

/-- All functions that are declared are lowered, and the names of their blocks were given in
order. -/
structure Ordered (done : List Node) (s : State) : Prop where
  own : ∀ f ∈ s.module.functions, f.name ∈ functionNames done
  names : allLabels s.module = (List.range s.module.namesDrawn).map generatedName

section Ordered

variable {su : Setup} {decls done : List Node} {s s' : State} {u : Unit}

theorem functions_concat {name : String} {g : Nat} {fs fs' : List Flow.Function}
    (hfront : fs <+: fs') (hnodup : (fs'.map Function.name).Nodup) (hmem : ⟨name, g⟩ ∈ fs')
    (hfresh : ∀ f ∈ fs, f.name ≠ name) (hnew : ∀ f ∈ fs', f ∈ fs ∨ f = ⟨name, g⟩) :
    fs' = fs ++ [⟨name, g⟩] := by
  obtain ⟨more, rfl⟩ := hfront
  obtain ⟨-, hmore, hapart⟩ := List.nodup_append'.mp hnodup.of_map
  have hall : ∀ f ∈ more, f = ⟨name, g⟩ := fun f hf =>
    (hnew f (List.mem_append_right _ hf)).resolve_left fun hold => hapart hold hf
  have hin : ⟨name, g⟩ ∈ more :=
    (List.mem_append.mp hmem).resolve_left fun hold => hfresh _ hold rfl
  cases more with
  | nil => cases hin
  | cons f more =>
    cases more with
    | nil => rw [hall f (by simp)]
    | cons f' more =>
      refine absurd ?_ (List.nodup_cons.mp hmore).1
      rw [hall f (by simp), hall f' (by simp)]
      exact List.mem_cons_self

theorem function_ordered {tag : Tag} {name : String} {params : List Node} {result : ValueType}
    {body : Node} (hlow : Lowered su decls done s) (hsteps : Steps su {} s.module)
    (h : Ordered done s) (hd : .function tag name params result body ∈ decls)
    (hdone : name ∉ functionNames done)
    (hrun : selectFunction su tag name params result body s = .ok u s') :
    Ordered (done ++ [.function tag name params result body]) s' := by
  obtain ⟨htables, g, hlaid⟩ := selectFunction_laid hlow.toTables hd hdone hrun
  have hsteps' := selectFunction_steps hlow.rooted hrun
  have hfresh : ∀ f ∈ s.module.functions, f.name ≠ name := fun f hf he => hdone (he ▸ h.own f hf)
  constructor
  case own =>
    intro f hf
    rw [functionNames_append, List.mem_append]
    rcases hlaid.functions f hf with hold | rfl
    · exact .inl (h.own f hold)
    · exact .inr (by simp [functionNames])
  case names =>
    have hfunctions := functions_concat hlaid.grows.functions htables.names hlaid.mem hfresh
      hlaid.functions
    refine hsteps.allLabels_next hsteps' ?_ (fun q hq => ?_) h.names
    · have hall : Steps su {} s'.module := hsteps.trans hsteps'
      rw [hall.owned.length, hsteps.owned.length, hfunctions, List.length_append]
      rfl
    · obtain ⟨f, hf, rfl⟩ := hsteps.owned.mem.mp hq
      exact (hlaid.others f hf (hfresh f hf)).1

theorem Writes.keep {m m' : Module} (h : Writes su m m') :
    m'.functions = m.functions ∧ ∀ g, m'.count g = m.count g := by
  induction h with
  | refl => exact ⟨rfl, fun _ => rfl⟩
  | tail _ hwrite ih =>
    exact ⟨hwrite.functions.trans ih.1, fun g => (hwrite.count g).trans (ih.2 g)⟩

theorem var_ordered {tag : Tag} {name : String} {type : ValueType} {init : Node}
    (hsteps : Steps su {} s.module) (h : Ordered done s)
    (hrun : selectVar su .globals tag name init s = .ok u s') :
    Ordered (done ++ [.var tag name type init]) s' := by
  have hwrites := (writing_selectVar ..).writes s u s' hrun
  obtain ⟨hfunctions, hcount⟩ := hwrites.keep
  have hall : Steps su {} s'.module := hsteps.trans hwrites.steps
  have hlabels : allLabels s'.module = allLabels s.module := by
    rw [allLabels, hall.owned.length, hfunctions, ← hsteps.owned.length, allLabels]
    exact List.flatMap_congr fun g _ => hsteps.labels_same hwrites.steps (hcount g)
  refine ⟨fun f hf => ?_, ?_⟩
  · rw [functionNames_append]
    exact List.mem_append_left _ (h.own f (hfunctions ▸ hf))
  · rw [← hall.length_allLabels, hlabels, hsteps.length_allLabels, h.names]

theorem selectDecl_ordered {d : Node} (hlow : Lowered su decls done s)
    (hsteps : Steps su {} s.module) (h : Ordered done s) (hd : d ∈ decls)
    (hlabels : ∀ d' ∈ done, d'.label? ≠ d.label?) (hrun : selectDecl su d s = .ok u s') :
    Ordered (done ++ [d]) s' := by
  cases selectDecl_eq_ok hrun with
  | @function tag name params result body hk =>
    simp only [selectDecl, Node.tag?, hk] at hrun
    refine function_ordered hlow hsteps h hd ?_ hrun
    rw [selectFunction, bind_eq_ok] at hrun
    obtain ⟨g, s₁, hgraph, -⟩ := hrun
    refine functionGraph_fresh hlow.toTables (fun tag' _ _ _ _ hd' he => ?_) hgraph
    exact hlabels _ hd' (congrArg some he)
  | var hk =>
    simp only [selectDecl, Node.tag?, hk] at hrun
    exact var_ordered hsteps h hrun

theorem forM_selectDecl_ordered {tag : Tag} (hu : (Node.program tag decls).Unshared)
    (hlow : Lowered su decls [] s) (hsteps : Steps su {} s.module) (h : Ordered [] s)
    (hrun : decls.forM (selectDecl su) s = .ok u s') : Ordered decls s' := by
  refine (forM_induction
    (I := fun done t => Lowered su decls done t ∧ Steps su {} t.module ∧ Ordered done t)
    (fun done d rest hsplit t t' ht hd => ?_) ⟨hlow, hsteps, h⟩ hrun).2.2
  obtain ⟨hlow, hsteps, h⟩ := ht
  have hmem : d ∈ decls := by rw [hsplit]; simp
  have hlabels := label?_ne_of_split hu hsplit (by cases selectDecl_eq_ok hd <;> rfl)
  exact ⟨selectDecl_lowered hlow hmem hlabels hd,
    hsteps.trans (selectDecl_steps hlow.rooted hd),
    selectDecl_ordered hlow hsteps h hmem hlabels hd⟩

theorem lowered_init : Lowered su decls [] {} where
  toTables := tables_init
  globals _ _ := by rw [GlobalsCode]
  functions _ _ _ _ _ hf := by cases hf
  owners _ ho := by cases ho
  links _ hf := by cases hf

/-- Without forward calls names are given in the order of the functions. -/
theorem select_ordered {tag : Tag} {fin : State} (hu : (Node.program tag decls).Unshared)
    (hforward : su.config.uses .forwardCalls = false)
    (hsel : select su (.program tag decls) = .ok u fin) : Ordered decls fin := by
  have hrun : decls.forM (selectDecl su) {} = .ok u fin := by
    rw [select_of_kind su (select_isDecl hsel).1, selectDecls, hforward] at hsel
    exact hsel
  have hinit : Ordered [] {} := ⟨fun f hf => (by cases hf), rfl⟩
  exact forM_selectDecl_ordered hu lowered_init .refl hinit hrun

end Ordered

/-! ## Modules -/

/-- How the blocks of a module are numbered that the declarations are lowered to. -/
structure Numbered (su : Setup) (decls : List Node) (m : Module) : Prop where
  count : (m.functions.map fun f => (m.graph f.graph).blocks.length).sum =
    ((functionBodies decls).map fun body => 1 + body.countKind .compoundStmt +
      body.countKind .ifStmt + 2 * body.countKind .whileStmt).sum
  drawn : (m.functions.map fun f => (m.graph f.graph).blocks.length).sum = m.namesDrawn
  names : (m.functions.flatMap fun f => labels m f.graph).Perm
    ((List.range m.namesDrawn).map generatedName)
  /-- A block is referred to by its place, so this holds of every module. -/
  places : ∀ f ∈ m.functions, ∀ (i : Nat) (r : BlockRef),
    (m.blockRefs f.graph)[i]? = some r → r = ⟨f.graph, i⟩
  ascending : ∀ f ∈ m.functions, ∃ draws : List Nat,
    labels m f.graph = draws.map generatedName ∧ draws.Pairwise (· < ·)
  ordered : su.config.uses .forwardCalls = false →
    (m.functions.flatMap fun f => labels m f.graph) =
      (List.range m.namesDrawn).map generatedName

section Module

variable {su : Setup} {tag : Tag} {decls : List Node} {u : Unit} {fin : State}

/-- **The blocks of a program are counted by its statements with bodies, and named by the
numbers from zero on.** -/
theorem select_numbered (hu : (Node.program tag decls).Unshared)
    (hsel : select su (.program tag decls) = .ok u fin) : Numbered su decls fin.module := by
  have hsteps := select_steps hsel
  have howned := hsteps.owned
  have hlabels := howned.flatMap_labels
  constructor
  case count =>
    refine (select_laid hu hsel).sum_count.trans
      (congrArg List.sum (List.map_congr_left fun body _ => ?_))
    rw [Node.opened_eq_countKind]
    omega
  case drawn => exact howned.sum_count.trans hsteps.length_allLabels
  case names =>
    rw [hlabels]
    exact hsteps.names_perm
  case places =>
    intro f _ i r hr
    obtain ⟨hi, rfl⟩ := List.getElem?_eq_some_iff.mp hr
    simp [Module.blockRefs]
  case ascending =>
    intro f _
    obtain ⟨-, draws, hdraws, hsorted, -⟩ := hsteps.drawn f.graph
    exact ⟨draws, hdraws, hsorted⟩
  case ordered =>
    intro hforward
    rw [hlabels]
    exact (select_ordered hu hforward hsel).names

end Module

theorem callingDecls_numbered : ∃ t b fin,
    resolveProgram (.program (.nowhere 0 .program) callingDecls) {} = .ok t b ∧
      select (stackSetup t b) (.program (.nowhere 0 .program) callingDecls) = .ok () fin ∧
      fin.module.namesDrawn = 9 ∧ (stackSetup t b).config.uses .forwardCalls = false ∧
      Numbered (stackSetup t b) callingDecls fin.module := by
  have hlowers : (lowered? stackSetup (.program (.nowhere 0 .program) callingDecls)).any
      (fun s => s.module.namesDrawn == 9) = true := by decide +kernel
  obtain ⟨fin, hfin, hdrawn⟩ := (Option.any_eq_true _ _).mp hlowers
  obtain ⟨t, b, hres, hsel⟩ := exists_of_lowered? hfin
  have hu : (Node.program (.nowhere 0 .program) callingDecls).Unshared := by decide
  exact ⟨t, b, fin, hres, hsel, beq_iff_eq.mp hdrawn, rfl, select_numbered hu hsel⟩

end Isel.Select
