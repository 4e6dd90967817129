import Isel.Proofs.Links
import Isel.Proofs.Scoping

/-!
# Programs are laid out

Every function of a program gets a graph of its own.  Its first block takes over the
parameters, and the code of its body begins in the next one (`FunctionCode`).  The
global sequence is the code of the variables of the program scope, in order
(`GlobalsCode`).

`select_laid` says this of the module that selection leaves, that its blocks are linked, and
which labels have got slots.
-/

namespace Isel.Select

open Isel.Flow Isel.Syntax Isel.Proofs
open Isel.Scope (functionNames)

/-! ## The code of a program -/

/-- The instructions that take over parameters. -/
def ParamsIn (su : Setup) (params : List Slot) (out : List Instr) : Prop :=
  if params = [] then out = [] else Answered su (.paramsIn params) out

theorem ParamsIn.each {su : Setup} {slots : List Slot} {code : List Instr} {P : Instr → Prop}
    (h : ParamsIn su slots code)
    (hhook : ∀ out, Answered su (.paramsIn slots) out → ∀ i ∈ out, P i) : ∀ i ∈ code, P i := by
  rw [ParamsIn] at h
  split at h
  · simp [h]
  · exact hhook code h

/-- The `n` blocks of a graph hold the code of a function. -/
def FunctionCode (su : Setup) (fin : State) (g : Nat) (B : Blocks) (n : Nat) (params : List Node)
    (body : Node) : Prop :=
  ∃ tag stmts slots j, body = .compound tag stmts ∧
    (params.map fun p => fin.slots.slot? p.label?) = slots.map some ∧
    ParamsIn su slots (B 0) ∧ StmtsAt su fin g B stmts 1 (B 1) j [] ∧ n = j + 1

/-- The code of the variables of the program scope, in order.  A function leaves copies
behind, one for each of its variables that is taken for one of the program scope. -/
def GlobalsCode (su : Setup) (fin : State) : List Node → List Instr → Prop
  | [], code => code = []
  | .var _ _ _ .absent :: rest, code => GlobalsCode su fin rest code
  | .var tag _ _ init :: rest, code =>
    ∃ source slot c d, ExprCode su fin init source c ∧
      fin.slots.slot? (some tag.label) = some slot ∧ GlobalsCode su fin rest d ∧
      code = c ++ ⟨.mov, [.slot slot, .slot source]⟩ :: d
  | .function _ _ _ _ body :: rest, code =>
    ∃ c d, Copies c ∧ (Local su body → c = []) ∧ GlobalsCode su fin rest d ∧ code = c ++ d
  | _ :: rest, code => GlobalsCode su fin rest code

/-! ## Functions are reserved -/

/-- The steps from `s` to `s'` declared a function with the new graph `g`. -/
structure Reserved (tag : Tag) (name : String) (result : ValueType) (g : Nat) (s s' : State) :
    Prop where
  graph : g = s.module.graphs.length
  fresh : ∀ f ∈ s.module.functions, f.name ≠ name
  functions : s'.module.functions = s.module.functions ++ [⟨name, g⟩]
  signatures : s'.signatures = s.signatures ++ [⟨name, tag.label, result⟩]
  count : ∀ q, s'.module.count q = if q = g then 1 else s.module.count q
  code : ∀ q : Point, q.code s'.module = q.code s.module
  edges : ∀ q, s'.module.edges q = s.module.edges q
  graphs : s'.module.graphs.length = s.module.graphs.length + 1
  slots : s'.slots = s.slots
  literals : s'.module.literals = s.module.literals

theorem graph_addGraph (m : Module) (q : Nat) (own : Bool) :
    ((m.addGraph own).1.graph q).blocks = (m.graph q).blocks := by
  simp only [Module.addGraph, Module.graph]
  rcases Nat.lt_trichotomy q m.graphs.length with hlt | rfl | hgt
  · rw [List.getElem?_append_left hlt]
  · rw [List.getElem?_concat_length, List.getElem?_eq_none (Nat.le_refl _)]
    rfl
  · rw [List.getElem?_eq_none (by simp; omega), List.getElem?_eq_none (by omega)]

/-- The module with a new graph of one empty block. -/
def reservedModule (m : Module) : Module :=
  ((m.addGraph false).1.addBlock m.graphs.length "" []).1

theorem reservedModule_spec (m : Module) :
    (∀ q, (reservedModule m).count q = if q = m.graphs.length then 1 else m.count q) ∧
      (∀ q : Point, q.code (reservedModule m) = q.code m) ∧
      (∀ q, (reservedModule m).edges q = m.edges q) ∧
      (reservedModule m).graphs.length = m.graphs.length + 1 ∧
      (reservedModule m).functions = m.functions ∧ (reservedModule m).literals = m.literals := by
  have hblocks : ∀ q, ((m.addGraph false).1.graph q).blocks = (m.graph q).blocks :=
    fun q => graph_addGraph m q false
  have hlt : m.graphs.length < (m.addGraph false).1.graphs.length := by simp [Module.addGraph]
  obtain ⟨hgraphs, hfun, hglob, hlit⟩ := (m.addGraph false).1.addBlock_rest m.graphs.length
  refine ⟨fun q => ?_, fun q => ?_, fun q => ?_, ?_, hfun, hlit⟩
  · refine (Module.count_addBlock hlt q).trans ?_
    rw [Module.count, hblocks]
    by_cases hq : q = m.graphs.length
    · subst hq
      rw [if_pos rfl, if_pos rfl, Module.graph, List.getElem?_eq_none (Nat.le_refl _)]
      rfl
    · rw [if_neg hq, if_neg hq]
      rfl
  · cases q with
    | globals => exact hglob
    | block r =>
      refine (Module.code_addBlock hlt r).trans ?_
      rw [Module.code, Module.block?, hblocks]
      rfl
  · refine (Module.edges_addBlock hlt q).trans ?_
    rw [Module.edges, Module.block?, hblocks]
    rfl
  · exact hgraphs.trans (by simp [Module.addGraph])

theorem interned_reservedModule (m : Module) : (reservedModule m).interned = m.interned :=
  (m.addGraph false).1.interned_addBlock m.graphs.length

theorem reserveFunction_apply (tag : Tag) (name : String) (result : ValueType) (s : State) :
    reserveFunction tag name result s =
      match (reservedModule s.module).addFunction name s.module.graphs.length with
      | .error e => .error (.fault ⟨tag.pos, .duplicate e⟩) s
      | .ok m =>
        .ok s.module.graphs.length
          { s with module := m, signatures := s.signatures ++ [⟨name, tag.label, result⟩] } := by
  have hopen : reserveFunction tag name result s =
      (match (reservedModule s.module).addFunction name s.module.graphs.length with
      | .error e => fail tag.pos (.duplicate e)
      | .ok m => do
        modify fun s =>
          { s with module := m, signatures := s.signatures ++ [⟨name, tag.label, result⟩] }
        return s.module.graphs.length : Selection Nat) s := rfl
  rw [hopen]
  cases (reservedModule s.module).addFunction name s.module.graphs.length <;> rfl

theorem reserveFunction_spec (tag : Tag) {name : String} (result : ValueType) {s : State}
    (h : s.module.function? name = none) :
    ∃ s', reserveFunction tag name result s = .ok s.module.graphs.length s' ∧
      Reserved tag name result s.module.graphs.length s s' := by
  obtain ⟨hcount, hcode, hedges, hgraphs, hfun, hlit⟩ := reservedModule_spec s.module
  have hadd : (reservedModule s.module).addFunction name s.module.graphs.length =
      .ok { reservedModule s.module with
        functions := s.module.functions ++ [⟨name, s.module.graphs.length⟩] } := by
    rw [Module.addFunction, Module.function?, hfun, ← Module.function?, h]
    rfl
  have hrun := reserveFunction_apply tag name result s
  rw [hadd] at hrun
  refine ⟨_, hrun, rfl, ?_, rfl, rfl, hcount, ?_, hedges, hgraphs, rfl, hlit⟩
  · intro f hf hname
    rw [Module.function?, List.find?_eq_none] at h
    simpa [hname] using h f hf
  · intro q
    refine Eq.trans ?_ (hcode q)
    cases q <;> rfl

theorem reserveFunction_eq_ok {tag : Tag} {name : String} {result : ValueType} {s s' : State}
    {g : Nat} (h : reserveFunction tag name result s = .ok g s') :
    Reserved tag name result g s s' := by
  cases hfound : s.module.function? name with
  | none =>
    obtain ⟨s₁, hs₁, hspec⟩ := reserveFunction_spec tag result hfound
    rw [hs₁] at h
    cases h
    exact hspec
  | some f =>
    obtain ⟨-, -, -, -, hfun, -⟩ := reservedModule_spec s.module
    have hadd : (reservedModule s.module).addFunction name s.module.graphs.length =
        .error ⟨name⟩ := by
      rw [Module.addFunction, Module.function?, hfun, ← Module.function?, hfound]
      rfl
    rw [reserveFunction_apply, hadd] at h
    cases h

theorem function?_of_mem {m : Module} {name : String} {g : Nat} (hmem : ⟨name, g⟩ ∈ m.functions)
    (hnames : (m.functions.map Function.name).Nodup) : m.function? name = some ⟨name, g⟩ :=
  find?_eq_of_unique hmem (beq_self_eq_true name) fun _ hf he =>
    List.inj_on_of_nodup_map hnames hf hmem (beq_iff_eq.mp he)

theorem functionAt?_of_mem {m : Module} {f : Function} (hf : f ∈ m.functions)
    (hrooted : ∀ f ∈ m.functions, 0 < m.count f.graph)
    (hgraphs : (m.functions.map Flow.Function.graph).Nodup) :
    m.functionAt? (some ⟨f.graph, 0⟩) = some f := by
  refine find?_eq_of_unique hf ?_ fun f' hf' he => ?_
  · rw [beq_iff_eq]
    exact (entry?_of_count (hrooted f hf)).1
  · have hentry := entry?_eq (beq_iff_eq.mp he)
    exact List.inj_on_of_nodup_map hgraphs hf' hf (BlockRef.mk.inj hentry).1.symm

/-- What holds of the functions of a module while the declarations `decls` of a program
are lowered and `done` are lowered already. -/
structure Tables (decls done : List Node) (s : State) : Prop where
  names : (s.module.functions.map Function.name).Nodup
  graphs : (s.module.functions.map Flow.Function.graph).Nodup
  there : ∀ f ∈ s.module.functions, f.graph < s.module.graphs.length
  owned : ∀ g, g < s.module.graphs.length → ∃ f ∈ s.module.functions, f.graph = g
  rooted : ∀ f ∈ s.module.functions, 0 < s.module.count f.graph
  signed : s.signatures.map Signature.name = s.module.functions.map Function.name
  sources : ∀ sig ∈ s.signatures, ∃ tag params body,
    .function tag sig.name params sig.result body ∈ decls
  known : ∀ tag name params result body, .function tag name params result body ∈ done →
    ∃ sig ∈ s.signatures, sig.name = name ∧ sig.label = tag.label
  apart : (functionNames done).Nodup
  pending : ∀ f ∈ s.module.functions, f.name ∉ functionNames done →
    s.module.count f.graph = 1 ∧ s.module.code ⟨f.graph, 0⟩ = []

section Tables

variable {decls done : List Node} {s : State}

theorem Tables.declared (h : Tables decls done s) :
    ∀ f ∈ s.module.functions, ∃ sig ∈ s.signatures, sig.name = f.name := by
  intro f hf
  have hname : f.name ∈ s.signatures.map Signature.name := by
    rw [h.signed]
    exact List.mem_map_of_mem hf
  exact List.mem_map.mp hname

theorem Tables.ready (h : Tables decls done s) : s.Declared :=
  fun f hf => ⟨h.rooted f hf, h.declared f hf⟩

theorem Tables.graph_ne (h : Tables decls done s) {f f' : Function}
    (hf : f ∈ s.module.functions) (hf' : f' ∈ s.module.functions) (hne : f.name ≠ f'.name) :
    f.graph ≠ f'.graph := by
  intro he
  exact hne (congrArg Function.name (List.inj_on_of_nodup_map h.graphs hf hf' he))

/-- What a function that is lowered anew needs to change: its own graph. -/
theorem Tables.step (h : Tables decls done s) {s' : State} {more : List Node}
    (hfun : s'.module.functions = s.module.functions) (hsig : s'.signatures = s.signatures)
    (hgraphs : s'.module.graphs.length = s.module.graphs.length)
    (hrooted : ∀ f ∈ s.module.functions, 0 < s'.module.count f.graph)
    (hknown : ∀ tag name params result body, .function tag name params result body ∈ more →
      ∃ sig ∈ s.signatures, sig.name = name ∧ sig.label = tag.label)
    (hmore : (functionNames more).Nodup)
    (hfresh : ∀ name ∈ functionNames more, name ∉ functionNames done)
    (hpending : ∀ f ∈ s.module.functions, f.name ∉ functionNames done →
      f.name ∉ functionNames more → s'.module.count f.graph = s.module.count f.graph ∧
        s'.module.code ⟨f.graph, 0⟩ = s.module.code ⟨f.graph, 0⟩) :
    Tables decls (done ++ more) s' where
  names := hfun ▸ h.names
  graphs := hfun ▸ h.graphs
  there := by
    rw [hfun, hgraphs]
    exact h.there
  owned := by
    rw [hfun, hgraphs]
    exact h.owned
  rooted := hfun ▸ hrooted
  signed := by rw [hfun, hsig, h.signed]
  sources := hsig ▸ h.sources
  known tag name params result body hd := by
    rw [hsig]
    rcases List.mem_append.mp hd with hd | hd
    · exact h.known tag name params result body hd
    · exact hknown tag name params result body hd
  apart := by
    rw [functionNames, List.filterMap_append, List.nodup_append']
    exact ⟨h.apart, hmore, fun name hdone hnew => hfresh name hnew hdone⟩
  pending f hf hnot := by
    rw [hfun] at hf
    rw [functionNames, List.filterMap_append, List.mem_append, not_or] at hnot
    obtain ⟨hcount, hcode⟩ := hpending f hf hnot.1 hnot.2
    rw [hcount, hcode]
    exact h.pending f hf hnot.1

end Tables

theorem Reserved.grows {tag : Tag} {name : String} {result : ValueType} {g : Nat} {s s' : State}
    (h : Reserved tag name result g s s') : Grows s s' :=
  ⟨h.slots ▸ List.prefix_rfl, h.literals ▸ List.prefix_rfl, h.functions ▸ List.prefix_append _ _,
    h.signatures ▸ List.prefix_append _ _⟩

theorem Reserved.absent {tag : Tag} {name : String} {result : ValueType} {g : Nat} {s s' : State}
    (h : Reserved tag name result g s s') : s.module.count g ≤ 0 := by
  rw [Module.count, Module.graph, h.graph, List.getElem?_eq_none (Nat.le_refl _)]
  exact Nat.le_refl 0

theorem Reserved.tables {tag : Tag} {name : String} {params : List Node} {result : ValueType}
    {body : Node} {g : Nat} {s s' : State} {decls done : List Node}
    (h : Reserved tag name result g s s') (ht : Tables decls done s)
    (hd : .function tag name params result body ∈ decls) : Tables decls done s' := by
  have hcode : ∀ q, s'.module.code q = s.module.code q := fun q => h.code (.block q)
  have hnew : ∀ f ∈ s.module.functions, f.graph ≠ g := fun f hf he => by
    have := ht.there f hf
    rw [he, h.graph] at this
    omega
  have hfunctions : ∀ {P : Function → Prop}, (∀ f ∈ s.module.functions, P f) → P ⟨name, g⟩ →
      ∀ f ∈ s'.module.functions, P f := by
    intro P hold hself f hf
    rw [h.functions, List.mem_append, List.mem_singleton] at hf
    rcases hf with hf | rfl
    · exact hold f hf
    · exact hself
  constructor
  case names =>
    rw [h.functions, List.map_append, List.nodup_append']
    refine ⟨ht.names, by simp, fun n hn hn' => ?_⟩
    obtain ⟨f, hf, rfl⟩ := List.mem_map.mp hn
    exact h.fresh f hf (by simpa using hn')
  case graphs =>
    rw [h.functions, List.map_append, List.nodup_append']
    refine ⟨ht.graphs, by simp, fun q hq hq' => ?_⟩
    obtain ⟨f, hf, rfl⟩ := List.mem_map.mp hq
    exact hnew f hf (by simpa using hq')
  case there =>
    rw [h.graphs]
    refine hfunctions (fun f hf => Nat.lt_succ_of_lt (ht.there f hf)) ?_
    rw [h.graph]
    exact Nat.lt_succ_self _
  case owned =>
    intro q hq
    rw [h.graphs] at hq
    rw [h.functions]
    rcases Nat.lt_succ_iff_lt_or_eq.mp hq with hlt | rfl
    · obtain ⟨f, hf, hfq⟩ := ht.owned q hlt
      exact ⟨f, List.mem_append_left _ hf, hfq⟩
    · exact ⟨⟨name, g⟩, by simp, h.graph⟩
  case rooted =>
    refine hfunctions (fun f hf => ?_) ?_
    · rw [h.count, if_neg (hnew f hf)]
      exact ht.rooted f hf
    · rw [h.count, if_pos rfl]
      exact Nat.one_pos
  case signed =>
    rw [h.signatures, h.functions, List.map_append, List.map_append, ht.signed]
    rfl
  case sources =>
    intro sig hsig
    rw [h.signatures, List.mem_append, List.mem_singleton] at hsig
    rcases hsig with hsig | rfl
    · exact ht.sources sig hsig
    · exact ⟨tag, params, body, hd⟩
  case known =>
    intro tag' name' params' result' body' hf
    obtain ⟨sig, hsig, hsame⟩ := ht.known tag' name' params' result' body' hf
    exact ⟨sig, h.signatures ▸ List.mem_append_left _ hsig, hsame⟩
  case apart => exact ht.apart
  case pending =>
    refine hfunctions (fun f hf hdone => ?_) fun _ => ?_
    · rw [h.count, hcode, if_neg (hnew f hf)]
      exact ht.pending f hf hdone
    · rw [h.count, hcode, if_pos rfl]
      exact ⟨rfl, Module.code_of_count_le h.absent⟩

/-! ## A function is lowered -/

/-- A function is declared unless its very node was declared before. -/
theorem functionGraph_cases {tag : Tag} {name : String} {result : ValueType} {s s' : State}
    {g : Nat} (h : functionGraph tag name result s = .ok g s') :
    (s' = s ∧ ⟨name, g⟩ ∈ s.module.functions ∧
      ∃ sig ∈ s.signatures, sig.name = name ∧ sig.label = tag.label) ∨
      reserveFunction tag name result s = .ok g s' := by
  rw [functionGraph, get_bind_apply] at h
  cases hf : s.module.function? name with
  | none =>
    simp only [hf] at h
    exact .inr h
  | some f =>
    cases hsig : s.signatures.find? (fun sig => sig.name == name) with
    | none =>
      simp only [hf, hsig] at h
      exact .inr h
    | some sig =>
      simp only [hf, hsig] at h
      split at h
      · next hlabel =>
        cases h
        have hname : f.name = name := by simpa using List.find?_some hf
        refine .inl ⟨rfl, ?_, sig, List.mem_of_find?_eq_some hsig, ?_, hlabel⟩
        · rw [← hname]
          exact List.mem_of_find?_eq_some hf
        · simpa using List.find?_some hsig
      · exact .inr h

/-- A function is declared, and for other declarations nothing is done. -/
theorem reserveDecl_cases {d : Node} {s s' : State} {u : Unit} (h : reserveDecl d s = .ok u s') :
    s' = s ∨ ∃ tag name params result body g, d = .function tag name params result body ∧
      reserveFunction tag name result s = .ok g s' := by
  rw [reserveDecl] at h
  cases htag : d.tag? with
  | none => simp [htag] at h
  | some tag =>
    simp only [htag] at h
    split at h
    · cases d with
      | function tag' name params result body =>
        cases htag
        dsimp only at h
        rw [bind_eq_ok] at h
        obtain ⟨g, s₁, hres, h⟩ := h
        cases h
        exact .inr ⟨tag, name, params, result, body, g, rfl, hres⟩
      | _ => cases h
    · cases h
      exact .inl rfl

theorem functionGraph_eq_ok {tag : Tag} {name : String} {result : ValueType} {s s' : State}
    {g : Nat} (h : functionGraph tag name result s = .ok g s') :
    (s' = s ∧ ⟨name, g⟩ ∈ s.module.functions ∧
      ∃ sig ∈ s.signatures, sig.name = name ∧ sig.label = tag.label) ∨
      Reserved tag name result g s s' := (functionGraph_cases h).imp_right reserveFunction_eq_ok

/-- No name is declared twice: a declaration of another node under a name that is taken is
refused. -/
theorem functionGraph_fresh {tag : Tag} {name : String} {result : ValueType} {s s' : State}
    {g : Nat} {decls done : List Node} (ht : Tables decls done s)
    (hlabel : ∀ tag' name' params' result' body',
      .function tag' name' params' result' body' ∈ done → tag'.label ≠ tag.label)
    (h : functionGraph tag name result s = .ok g s') : name ∉ functionNames done := by
  intro hmem
  obtain ⟨d, hd, hname⟩ := List.mem_filterMap.mp hmem
  cases d with
  | function tag' name' params' result' body' =>
    cases hname
    obtain ⟨sig, hsig, hsname, hslabel⟩ := ht.known _ _ _ _ _ hd
    rcases functionGraph_eq_ok h with ⟨-, -, sig', hsig', hsname', hslabel'⟩ | hres
    · have hnames : (s.signatures.map Signature.name).Nodup := ht.signed ▸ ht.names
      cases List.inj_on_of_nodup_map hnames hsig hsig' (hsname.trans hsname'.symm)
      exact hlabel _ _ _ _ _ hd (hslabel.symm.trans hslabel')
    · have hfun : sig.name ∈ s.module.functions.map Function.name := by
        rw [← ht.signed]
        exact List.mem_map_of_mem hsig
      obtain ⟨f, hf, hfname⟩ := List.mem_map.mp hfun
      exact hres.fresh f hf (hfname.trans hsname)
  | _ => cases hname

/-- The steps from `s` to `s'` found the graph `g` of a function, or made it. -/
structure Located (tag : Tag) (name : String) (g : Nat) (s s' : State) : Prop where
  mem : ⟨name, g⟩ ∈ s'.module.functions
  known : ∃ sig ∈ s'.signatures, sig.name = name ∧ sig.label = tag.label
  functions : ∀ f ∈ s'.module.functions, f ∈ s.module.functions ∨ f = ⟨name, g⟩
  grows : Grows s s'
  slots : s'.slots = s.slots
  code : ∀ q : Point, q.code s'.module = q.code s.module
  counts : ∀ q, q ≠ g → s'.module.count q = s.module.count q
  edges : ∀ q, s'.module.edges q = s.module.edges q
  /-- A graph that is made has no edges. -/
  loose : ⟨name, g⟩ ∈ s.module.functions ∨ s.module.edges ⟨g, 0⟩ = []

theorem Reserved.located {tag : Tag} {name : String} {result : ValueType} {g : Nat} {s s' : State}
    (h : Reserved tag name result g s s') : Located tag name g s s' where
  mem := by simp [h.functions]
  known := by
    rw [h.signatures]
    exact ⟨_, List.mem_append_right _ (List.mem_singleton.mpr rfl), rfl, rfl⟩
  functions f hf := by
    rw [h.functions, List.mem_append, List.mem_singleton] at hf
    exact hf
  grows := h.grows
  slots := h.slots
  code := h.code
  counts q hq := by rw [h.count, if_neg hq]
  edges := h.edges
  loose := .inr (Module.edges_of_count_le h.absent)

theorem functionGraph_located {tag : Tag} {name : String} {result : ValueType} {s s' : State}
    {g : Nat} (h : functionGraph tag name result s = .ok g s') : Located tag name g s s' := by
  rcases functionGraph_eq_ok h with ⟨rfl, hmem, hknown⟩ | hres
  · exact ⟨hmem, hknown, fun _ hf => .inl hf, Grows.refl _, rfl, fun _ => rfl, fun _ _ => rfl,
      fun _ => rfl, .inl hmem⟩
  · exact hres.located

theorem functionGraph_tables {tag : Tag} {name : String} {params : List Node}
    {result : ValueType} {body : Node} {s s' : State} {g : Nat} {decls done : List Node}
    (ht : Tables decls done s) (hd : .function tag name params result body ∈ decls)
    (h : functionGraph tag name result s = .ok g s') : Tables decls done s' := by
  rcases functionGraph_eq_ok h with ⟨rfl, -, -⟩ | hres
  · exact ht
  · exact hres.tables ht hd

theorem selectParams_laid {function : String} : ∀ (params : List Node) (s s' : State)
    (slots : List Slot), selectParams function params s = .ok slots s' → ∀ pt : Point,
      Emitted pt [] s s' ∧ Adds (params.filterMap Node.label?) s s' ∧
        ∀ fin, Grows s' fin → (params.map fun p => fin.slots.slot? p.label?) = slots.map some := by
  intro params
  induction params with
  | nil =>
    intro s s' slots h pt
    rw [selectParams] at h
    cases h
    exact ⟨emitted_same rfl rfl List.prefix_rfl, Adds.of_slots rfl, fun _ _ => rfl⟩
  | cons p params ih =>
    intro s s' slots h pt
    rw [selectParams] at h
    cases htag : p.tag? with
    | none => simp [htag] at h
    | some tag =>
      have hlabel : p.label? = some tag.label := by rw [Node.label?, htag]; rfl
      simp only [htag] at h
      split at h
      · cases h
      · rw [bind_eq_ok] at h
        obtain ⟨slot, s₁, halloc, h⟩ := h
        rw [bind_eq_ok] at h
        obtain ⟨rest, s₂, hrest, h⟩ := h
        cases h
        obtain ⟨hnone, rfl, rfl⟩ := allocate_eq_ok.mp halloc
        obtain ⟨hemit, hadds, hmap⟩ := ih _ _ _ hrest pt
        have hemit₁ := emitted_withOwner pt s tag.label
        rw [List.filterMap_cons_some hlabel]
        refine ⟨hemit₁.trans hemit, ?_, fun fin hfin => ?_⟩
        · exact (adds_withOwner (by simp) s).trans (hadds.mono fun l hl => by simp [hl])
        · have hslot := (hemit.grows.trans hfin).slot? (slot?_withOwner hnone)
          rw [List.map_cons, hmap fin hfin, hlabel, hslot]
          rfl

/-- The labels that lowering a declaration may give slots to. -/
def declClaims (su : Setup) : Node → List Label
  | .function _ _ params _ body => params.filterMap Node.label? ++ claims su body
  | d => claims su d

theorem params_laid {su : Setup} {pos : Source.Position} {name : String} {params : List Node}
    {pt : Point} {s s' : State} {α : Type} {k : Selection α} {a : α} (hv : pt.Valid s.module)
    (h : (do
      if !params.isEmpty then
        let slots ← selectParams name params
        serve su pos pt (.paramsIn slots)
      k : Selection α) s = .ok a s') :
    ∃ s₁ slots out, Emitted pt out s s₁ ∧ Adds (params.filterMap Node.label?) s s₁ ∧
      ParamsIn su slots out ∧ k s₁ = .ok a s' ∧ (∀ q, s₁.module.edges q = s.module.edges q) ∧
      ∀ fin, Grows s₁ fin → (params.map fun p => fin.slots.slot? p.label?) = slots.map some := by
  by_cases hparams : params = []
  · subst hparams
    exact ⟨s, [], [], emitted_same rfl rfl List.prefix_rfl, Adds.of_slots rfl, by simp [ParamsIn],
      h, fun _ => rfl, fun _ _ => rfl⟩
  · have hne : (!params.isEmpty) = true := by simpa using hparams
    rw [if_pos hne, bind_eq_ok] at h
    obtain ⟨slots, s₁, hsel, h⟩ := h
    rw [bind_eq_ok] at h
    obtain ⟨_, s₂, hserve, h⟩ := h
    obtain ⟨hemit, hadds, hmap⟩ := selectParams_laid params s s₁ slots hsel pt
    obtain ⟨out, hout, hemit₂, hslots⟩ := emitted_serve (hemit.valid hv) hserve
    refine ⟨s₂, slots, out, hemit.trans hemit₂, hadds.trans (Adds.of_slots hslots), ?_, h,
      fun q => ?_, fun fin hfin => hmap fin (hemit₂.grows.trans hfin)⟩
    · have hslots : slots ≠ [] := by
        rintro rfl
        have := congrArg List.length (hmap s₁ (Grows.refl s₁))
        simp at this
        exact hparams this
      rw [ParamsIn, if_neg hslots]
      exact ⟨_, hout⟩
    · have hread : Writing su (selectParams name params) := writing_selectParams name params
      rw [(writing_serve ..).edges hserve, hread.edges hsel]

/-- The steps from `s` to `s'` lowered the parameters and the body of a function into its graph
`g`, and wrote nowhere else, but for copies in the global sequence. -/
structure Filled (su : Setup) (g : Nat) (params : List Node) (body : Node) (s s' : State) :
    Prop where
  functions : s'.module.functions = s.module.functions
  signatures : s'.signatures = s.signatures
  graphs : s'.module.graphs.length = s.module.graphs.length
  grows : Grows s s'
  adds : Adds (params.filterMap Node.label? ++ claims su body) s s'
  counts : ∀ q, q ≠ g → s'.module.count q = s.module.count q
  others : ∀ r : BlockRef, r.graph ≠ g → s'.module.code r = s.module.code r
  globals : ∃ c, Copies c ∧ (Local su body → c = []) ∧ s'.module.globals = s.module.globals ++ c
  linked : s.module.edges ⟨g, 0⟩ = [] → GraphLinked su s'.module g ∧
    ∀ q : BlockRef, q.graph ≠ g → s'.module.edges q = s.module.edges q
  code : ∀ fin, Grows s' fin →
    FunctionCode su fin g (fun k => s'.module.code ⟨g, k⟩) (s'.module.count g) params body

/-- Parameters and body fill a graph that has one empty block. -/
theorem filled_of_empty {su : Setup} {tag : Tag} {name : String} {params : List Node}
    {body : Node} {g : Nat} {s s' : State} {u : Unit} (hone : s.module.count g = 1)
    (hempty : s.module.code ⟨g, 0⟩ = []) (hd : s.Declared)
    (h : (do
      if !params.isEmpty then
        let slots ← selectParams name params
        serve su tag.pos (.block ⟨g, 0⟩) (.paramsIn slots)
      if body.tag?.any fun t => t.kind == .compoundStmt then
        let _ ← selectBody su body ⟨g, 0⟩
      else fail tag.pos (.noBody name) : Selection Unit) s = .ok u s') :
    Filled su g params body s s' := by
  have hv : (Point.block ⟨g, 0⟩).Valid s.module := by
    show 0 < s.module.count g
    omega
  obtain ⟨s₁, slots, out, hemit, hadds, hparams, h, hedges, hmap⟩ := params_laid hv h
  have hcount : s₁.module.count g = 0 + 1 := (hemit.count g).trans hone
  split at h
  case isFalse => cases h
  rw [bind_eq_ok] at h
  obtain ⟨⟨_, r⟩, s₂, hbody, h⟩ := h
  cases h
  obtain ⟨-, btag, stmts, s₃, rfl, hopened, hstmts⟩ := selectBody_eq_ok hcount hbody
  obtain ⟨k, rfl, -, hwrote, hadds', hglob, hsame, hat⟩ := body_laid
    (L := claims su (.compound btag stmts)) (fun n _ => selectStmt_laid n)
    (fun n hn l => claims_part (n := .compound btag stmts) hn) hcount (hemit.declared hd)
    hopened hstmts
  have hentry : s₁.module.code ⟨g, 0⟩ = out := by rw [hemit.code_here, hempty, List.nil_append]
  constructor
  case functions => exact hwrote.functions.trans hemit.functions
  case signatures => exact hwrote.signatures.trans hemit.signatures
  case graphs => exact hwrote.graphs.trans hemit.graphs
  case grows => exact hemit.grows.trans hwrote.grows
  case adds =>
    exact (hadds.mono fun l hl => List.mem_append_left _ hl).trans
      (hadds'.mono fun l hl => List.mem_append_right _ hl)
  case counts => exact fun q hq => (hwrote.counts q hq).trans (hemit.count q)
  case others =>
    intro q hq
    rw [hwrote.others q hq, hemit.code_other fun he => hq (by rw [he])]
  case globals =>
    obtain ⟨c, hc, hcopied⟩ := hwrote.globals
    refine ⟨c, hc, fun hlocal => ?_, by rw [hcopied, hemit.globals]⟩
    rw [Local] at hlocal
    rw [hglob hlocal] at hcopied
    exact List.append_cancel_left (hcopied.symm.trans (List.append_nil _).symm)
  case linked =>
    -- The entry takes over the parameters, and then the body is linked.
    intro hnone
    have hout : StraightUpTo su out := fun hh => hparams.each fun out ho => hh _ out ho
    obtain ⟨-, l, hl, -, -, hlink, -⟩ := body_linked (fun n _ => stmt_linked n) hcount
      (hemit.declared hd) (by rw [hedges, hnone]) (hentry ▸ hout) hbody
    cases hl
    refine ⟨⟨fun l hl => ?_, fun l hl => ?_⟩, fun q hq => ?_⟩
    · rw [hwrote.count] at hl
      exact hlink.links l (Nat.zero_le l) (by omega)
    · rw [hwrote.count] at hl
      obtain rfl : l = k := by omega
      exact ⟨hlink.last, hlink.straight⟩
    · rw [hlink.before q (.inl hq), hedges]
  case code =>
    intro fin hfin
    refine ⟨btag, stmts, slots, k, rfl, hmap fin (hwrote.grows.trans hfin), ?_, ?_, hwrote.count⟩
    · show ParamsIn su slots (s'.module.code ⟨g, 0⟩)
      rw [hsame, hentry]
      exact hparams
    · exact hat fin _ [] hfin (fun _ _ _ => rfl) (by simp)

theorem FunctionCode.pos {su : Setup} {fin : State} {g n : Nat} {B : Blocks} {params : List Node}
    {body : Node} (h : FunctionCode su fin g B n params body) : 0 < n := by
  obtain ⟨-, -, -, j, -, -, -, -, rfl⟩ := h
  exact Nat.succ_pos j

theorem Filled.tables {su : Setup} {tag : Tag} {name : String} {params : List Node}
    {result : ValueType} {body : Node} {g : Nat} {s s' : State} {decls done : List Node}
    (h : Filled su g params body s s') (ht : Tables decls done s)
    (hmem : ⟨name, g⟩ ∈ s.module.functions)
    (hknown : ∃ sig ∈ s.signatures, sig.name = name ∧ sig.label = tag.label)
    (hdone : name ∉ functionNames done) :
    Tables decls (done ++ [.function tag name params result body]) s' := by
  refine ht.step h.functions h.signatures h.graphs ?_ ?_ (by simp [functionNames]) ?_ ?_
  · intro f hf
    by_cases hg : f.graph = g
    · rw [hg]
      exact (h.code s' (Grows.refl s')).pos
    · rw [h.counts f.graph hg]
      exact ht.rooted f hf
  · intro tag' name' params' result' body' hd'
    cases List.mem_singleton.mp hd'
    exact hknown
  · simpa [functionNames] using hdone
  · intro f hf _ hself
    have hne : f.graph ≠ g := ht.graph_ne hf hmem fun he => hself (by simp [functionNames, he])
    exact ⟨h.counts f.graph hne, h.others _ hne⟩

/-- The steps from `s` to `s'` lowered a function with the graph `g`; the graphs of the others
stay. -/
structure FunctionLaid (su : Setup) (name : String) (params : List Node) (body : Node) (g : Nat)
    (s s' : State) : Prop where
  mem : ⟨name, g⟩ ∈ s'.module.functions
  functions : ∀ f ∈ s'.module.functions, f ∈ s.module.functions ∨ f = ⟨name, g⟩
  grows : Grows s s'
  adds : Adds (params.filterMap Node.label? ++ claims su body) s s'
  globals : ∃ c, Copies c ∧ (Local su body → c = []) ∧ s'.module.globals = s.module.globals ++ c
  others : ∀ f ∈ s.module.functions, f.name ≠ name →
    s'.module.count f.graph = s.module.count f.graph ∧
      ∀ k, s'.module.code ⟨f.graph, k⟩ = s.module.code ⟨f.graph, k⟩
  loose : ⟨name, g⟩ ∈ s.module.functions ∨ s.module.edges ⟨g, 0⟩ = []
  linked : s.module.edges ⟨g, 0⟩ = [] → GraphLinked su s'.module g ∧
    ∀ q : BlockRef, q.graph ≠ g → s'.module.edges q = s.module.edges q
  code : ∀ fin, Grows s' fin →
    FunctionCode su fin g (fun k => s'.module.code ⟨g, k⟩) (s'.module.count g) params body

/-- **A function is laid out** in its graph. -/
theorem selectFunction_laid {su : Setup} {tag : Tag} {name : String} {params : List Node}
    {result : ValueType} {body : Node} {s s' : State} {u : Unit} {decls done : List Node}
    (ht : Tables decls done s) (hd : .function tag name params result body ∈ decls)
    (hdone : name ∉ functionNames done)
    (h : selectFunction su tag name params result body s = .ok u s') :
    Tables decls (done ++ [.function tag name params result body]) s' ∧
      ∃ g, FunctionLaid su name params body g s s' := by
  rw [selectFunction, bind_eq_ok] at h
  obtain ⟨g, s₁, hgraph, h⟩ := h
  have hloc := functionGraph_located hgraph
  have ht₁ := functionGraph_tables ht hd hgraph
  obtain ⟨hone, hempty⟩ := ht₁.pending _ hloc.mem hdone
  have hfill := filled_of_empty hone hempty ht₁.ready h
  refine ⟨hfill.tables ht₁ hloc.mem hloc.known hdone, g, ?_⟩
  constructor
  case mem => exact hfill.functions ▸ hloc.mem
  case functions => exact hfill.functions ▸ hloc.functions
  case grows => exact hloc.grows.trans hfill.grows
  case adds => exact (Adds.of_slots hloc.slots).trans hfill.adds
  case globals =>
    obtain ⟨c, hc, hlocal, hglob⟩ := hfill.globals
    have hsame : s₁.module.globals = s.module.globals := hloc.code .globals
    exact ⟨c, hc, hlocal, by rw [hglob, hsame]⟩
  case others =>
    intro f hf hne
    have hgne : f.graph ≠ g := ht₁.graph_ne (hloc.grows.functions.subset hf) hloc.mem hne
    exact ⟨(hfill.counts _ hgne).trans (hloc.counts _ hgne),
      fun k => (hfill.others _ hgne).trans (hloc.code (.block _))⟩
  case loose => exact hloc.loose
  case linked =>
    intro hnone
    obtain ⟨hlinked, hedges⟩ := hfill.linked (by rw [hloc.edges, hnone])
    exact ⟨hlinked, fun q hq => by rw [hedges q hq, hloc.edges]⟩
  case code => exact hfill.code

/-! ## The declarations one by one -/

/-- What holds when the declarations `done` of a program are lowered. -/
structure Lowered (su : Setup) (decls done : List Node) (s : State) : Prop extends
    Tables decls done s where
  globals : ∀ fin, Grows s fin → GlobalsCode su fin done s.module.globals
  functions : ∀ tag name params result body, .function tag name params result body ∈ done →
    ∃ g, ⟨name, g⟩ ∈ s.module.functions ∧ ∀ fin, Grows s fin →
      FunctionCode su fin g (fun k => s.module.code ⟨g, k⟩) (s.module.count g) params body
  owners : ∀ o ∈ s.slots.owners, ∃ l ∈ done.flatMap (declClaims su), o = some l
  links : ∀ f ∈ s.module.functions,
    if f.name ∈ functionNames done then GraphLinked su s.module f.graph
    else s.module.edges ⟨f.graph, 0⟩ = []

/-- A declaration of the top level that selection accepts. -/
inductive IsDecl : Node → Prop
  | function {tag : Tag} {name : String} {params : List Node} {result : ValueType} {body : Node} :
      tag.kind = .functionDecl → IsDecl (.function tag name params result body)
  | var {tag : Tag} {name : String} {type : ValueType} {init : Node} :
      tag.kind = .varDecl → IsDecl (.var tag name type init)

theorem selectDecl_eq_ok {su : Setup} {d : Node} {s s' : State} {u : Unit}
    (h : selectDecl su d s = .ok u s') : IsDecl d := by
  cases d with
  | absent => simp [selectDecl, Node.tag?] at h
  | function tag =>
    refine .function ?_
    simp only [selectDecl, Node.tag?] at h
    cases hk : tag.kind <;> first | rfl | simp [hk, fail] at h
  | var tag =>
    refine .var ?_
    simp only [selectDecl, Node.tag?] at h
    cases hk : tag.kind <;> first | rfl | simp [hk, fail] at h
  | bare tag | program tag | param tag | binary tag | boolean tag | call tag | ident tag
  | number tag | string tag | compound tag | ifThen tag | print tag | ret tag | scan tag
  | loop tag =>
    simp only [selectDecl, Node.tag?] at h
    cases hk : tag.kind <;> simp [hk, fail] at h

theorem globalsCode_var {su : Setup} {fin : State} {tag : Tag} {name : String}
    {type : ValueType} {init : Node} (h : init ≠ .absent) {rest : List Node} {code : List Instr} :
    GlobalsCode su fin (.var tag name type init :: rest) code ↔
      ∃ source slot c d, ExprCode su fin init source c ∧
        fin.slots.slot? (some tag.label) = some slot ∧ GlobalsCode su fin rest d ∧
        code = c ++ ⟨.mov, [.slot slot, .slot source]⟩ :: d := by
  cases init with
  | absent => exact absurd rfl h
  | _ => rw [GlobalsCode]; simp

theorem globalsCode_append {su : Setup} {fin : State} : ∀ (xs ys : List Node) (c d : List Instr),
    GlobalsCode su fin xs c → GlobalsCode su fin ys d → GlobalsCode su fin (xs ++ ys) (c ++ d) := by
  intro xs
  induction xs with
  | nil =>
    intro ys c d hc hd
    rw [GlobalsCode] at hc
    rw [hc]
    exact hd
  | cons x xs ih =>
    intro ys c d hc hd
    cases x with
    | var tag name type init =>
      by_cases hinit : init = .absent
      · subst hinit
        simp only [GlobalsCode, List.cons_append] at hc ⊢
        exact ih ys c d hc hd
      · obtain ⟨source, slot, e, f, he, hslot, hf, rfl⟩ := (globalsCode_var hinit).mp hc
        rw [List.cons_append, globalsCode_var hinit]
        exact ⟨source, slot, e, f ++ d, he, hslot, ih ys f d hf hd, by simp⟩
    | function tag name params result body =>
      rw [GlobalsCode] at hc
      obtain ⟨e, f, he, hlocal, hf, rfl⟩ := hc
      rw [List.cons_append, GlobalsCode]
      exact ⟨e, f ++ d, he, hlocal, ih ys f d hf hd, by simp⟩
    | _ =>
      simp only [GlobalsCode, List.cons_append] at hc ⊢
      exact ih ys c d hc hd

theorem functionNames_append (xs ys : List Node) :
    functionNames (xs ++ ys) = functionNames xs ++ functionNames ys := List.filterMap_append

theorem mem_functionNames {tag : Tag} {name : String} {params : List Node} {result : ValueType}
    {body : Node} {decls : List Node} (h : .function tag name params result body ∈ decls) :
    name ∈ functionNames decls := List.mem_filterMap.mpr ⟨_, h, rfl⟩

section Step

variable {su : Setup} {decls done : List Node} {s s' : State} {u : Unit}

theorem owners_step {d : Node}
    (h : ∀ o ∈ s.slots.owners, ∃ l ∈ done.flatMap (declClaims su), o = some l)
    (hadds : Adds (declClaims su d) s s') :
    ∀ o ∈ s'.slots.owners, ∃ l ∈ (done ++ [d]).flatMap (declClaims su), o = some l := by
  intro o ho
  rw [List.flatMap_append]
  rcases hadds o ho with ho | ⟨l, hl, rfl⟩
  · obtain ⟨l, hl, rfl⟩ := h o ho
    exact ⟨l, List.mem_append_left _ hl, rfl⟩
  · exact ⟨l, List.mem_append_right _ (by simpa using hl), rfl⟩

theorem function_lowered {tag : Tag} {name : String} {params : List Node} {result : ValueType}
    {body : Node} (h : Lowered su decls done s)
    (hd : .function tag name params result body ∈ decls) (hdone : name ∉ functionNames done)
    (hrun : selectFunction su tag name params result body s = .ok u s') :
    Lowered su decls (done ++ [.function tag name params result body]) s' := by
  obtain ⟨htables, g, hlaid⟩ := selectFunction_laid h.toTables hd hdone hrun
  refine ⟨htables, fun fin hfin => ?_, ?_, owners_step h.owners hlaid.adds, fun f hf => ?_⟩
  · obtain ⟨c, hc, hlocal, hglobals⟩ := hlaid.globals
    have hcopied : GlobalsCode su fin [.function tag name params result body] c := by
      rw [GlobalsCode]
      exact ⟨c, [], hc, hlocal, by rw [GlobalsCode], by simp⟩
    rw [hglobals]
    exact globalsCode_append _ _ _ _ (h.globals fin (hlaid.grows.trans hfin)) hcopied
  · intro tag' name' params' result' body' hf
    rw [List.mem_append, List.mem_singleton] at hf
    rcases hf with hf | hf
    · obtain ⟨g', hmem', hcode'⟩ := h.functions tag' name' params' result' body' hf
      have hne : name' ≠ name := fun he => hdone (he ▸ mem_functionNames hf)
      obtain ⟨hc, hl⟩ := hlaid.others ⟨name', g'⟩ hmem' hne
      refine ⟨g', hlaid.grows.functions.subset hmem', fun fin hfin => ?_⟩
      simp only [hc, hl]
      exact hcode' fin (hlaid.grows.trans hfin)
    · cases hf
      exact ⟨g, hlaid.mem, hlaid.code⟩
  · have hnone : s.module.edges ⟨g, 0⟩ = [] := by
      rcases hlaid.loose with hheld | hnone
      · have hlinks := h.links _ hheld
        rwa [if_neg hdone] at hlinks
      · exact hnone
    obtain ⟨hlinked, hedges⟩ := hlaid.linked hnone
    rw [functionNames_append]
    rcases hlaid.functions f hf with hold | rfl
    · by_cases hname : f.name = name
      · cases List.inj_on_of_nodup_map htables.names hf hlaid.mem hname
        rw [if_pos (by simp [functionNames])]
        exact hlinked
      · -- The graphs of the other functions stay.
        have hne : f.graph ≠ g := htables.graph_ne hf hlaid.mem hname
        obtain ⟨hcount, hcode⟩ := hlaid.others f hold hname
        have hlinks := h.links f hold
        by_cases hin : f.name ∈ functionNames done
        · rw [if_pos hin] at hlinks
          rw [if_pos (List.mem_append_left _ hin)]
          exact hlinks.congr hcount hcode fun k => hedges _ hne
        · rw [if_neg hin] at hlinks
          rw [if_neg (by simpa [functionNames, hname] using hin), hedges _ hne]
          exact hlinks
    · rw [if_pos (by simp [functionNames])]
      exact hlinked

theorem var_lowered {tag : Tag} {name : String} {type : ValueType} {init : Node}
    (h : Lowered su decls done s) (hrun : selectVar su .globals tag name init s = .ok u s') :
    Lowered su decls (done ++ [.var tag name type init]) s' := by
  have htables : ∀ {s' : State}, s'.module.functions = s.module.functions →
      s'.signatures = s.signatures → s'.module.graphs.length = s.module.graphs.length →
      (∀ q, s'.module.count q = s.module.count q) →
      (∀ q, s'.module.code q = s.module.code q) →
        Tables decls (done ++ [.var tag name type init]) s' := by
    intro s' hfun hsig hgraphs hcount hcode
    refine h.toTables.step hfun hsig hgraphs (fun f hf => ?_) (by simp) (by simp [functionNames])
      (by simp [functionNames]) fun f hf _ _ => ⟨hcount f.graph, hcode _⟩
    rw [hcount]
    exact h.rooted f hf
  have hedges := (writing_selectVar ..).edges hrun
  have hnames : functionNames (done ++ [.var tag name type init]) = functionNames done := by
    rw [functionNames_append]
    exact List.append_nil _
  by_cases hinit : init = .absent
  · subst hinit
    cases hrun
    refine ⟨htables rfl rfl rfl (fun _ => rfl) fun _ => rfl, fun fin hfin => ?_, ?_,
      owners_step h.owners (Adds.of_slots rfl), by rw [hnames]; exact h.links⟩
    · have hnone : GlobalsCode su fin [.var tag name type .absent] [] := by simp [GlobalsCode]
      simpa using globalsCode_append _ _ _ _ (h.globals fin hfin) hnone
    · intro tag' name' params' result' body' hf
      exact h.functions tag' name' params' result' body' (by simpa using hf)
  · obtain ⟨source, slot, c, hemit, hadds, hcode⟩ :=
      selectVar_laid (t := type) hinit hrun h.ready
    have hblock : ∀ q, s'.module.code q = s.module.code q := fun q =>
      hemit.elsewhere (.block q) (by simp)
    refine ⟨htables hemit.functions hemit.signatures hemit.graphs hemit.count hblock,
      fun fin hfin => ?_, ?_, owners_step h.owners hadds, fun f hf => ?_⟩
    · obtain ⟨hexpr, hslot⟩ := hcode fin hfin
      rw [show s'.module.globals = s.module.globals ++ _ from hemit.here]
      refine globalsCode_append _ _ _ _ (h.globals fin (hemit.grows.trans hfin)) ?_
      rw [globalsCode_var hinit]
      exact ⟨source, slot, c, [], hexpr, hslot, by rw [GlobalsCode], rfl⟩
    · intro tag' name' params' result' body' hf
      obtain ⟨g, hmem, hfun⟩ := h.functions tag' name' params' result' body' (by simpa using hf)
      refine ⟨g, by rwa [hemit.functions], fun fin hfin => ?_⟩
      simp only [hemit.count, hblock]
      exact hfun fin (hemit.grows.trans hfin)
    · have hlinks := h.links f (hemit.functions ▸ hf)
      rw [hnames, hedges]
      split at hlinks
      · next hin =>
        rw [if_pos hin]
        exact hlinks.congr (hemit.count _) (fun k => hblock _) fun k => hedges _
      · next hin =>
        rw [if_neg hin]
        exact hlinks

/-- A declaration is lowered behind others with other labels. -/
theorem selectDecl_lowered {d : Node} (h : Lowered su decls done s) (hd : d ∈ decls)
    (hlabels : ∀ d' ∈ done, d'.label? ≠ d.label?) (hrun : selectDecl su d s = .ok u s') :
    Lowered su decls (done ++ [d]) s' := by
  cases selectDecl_eq_ok hrun with
  | @function tag name params result body hk =>
    simp only [selectDecl, Node.tag?, hk] at hrun
    refine function_lowered h hd ?_ hrun
    rw [selectFunction, bind_eq_ok] at hrun
    obtain ⟨g, s₁, hgraph, -⟩ := hrun
    refine functionGraph_fresh h.toTables (fun tag' _ _ _ _ hd' he => ?_) hgraph
    exact hlabels _ hd' (congrArg some he)
  | var hk =>
    simp only [selectDecl, Node.tag?, hk] at hrun
    exact var_lowered h hrun

end Step

/-! ## Whole programs -/

section Program

variable {su : Setup} {decls : List Node} {u : Unit}

theorem forM_selectDecl_isDecl : ∀ (ns : List Node) (s s' : State),
    ns.forM (selectDecl su) s = .ok u s' → ∀ d ∈ ns, IsDecl d := by
  intro ns s s' h
  refine forM_induction (I := fun done _ => ∀ d ∈ done, IsDecl d)
    (fun done d rest _ t t' ht hd => ?_) (by simp) h
  exact List.forall_mem_append.mpr ⟨ht, List.forall_mem_singleton.mpr (selectDecl_eq_ok hd)⟩

theorem label?_ne_of_split {tag : Tag} (hu : (Node.program tag decls).Unshared)
    {done rest : List Node} {d : Node} (hsplit : decls = done ++ d :: rest)
    (hd : d.isAbsent = false) : ∀ d' ∈ done, d'.label? ≠ d.label? := by
  intro d' hd' he
  have hnodup : (decls.flatMap Node.labels).Nodup := Node.nodup_parts hu
  rw [hsplit, List.flatMap_append, List.nodup_append'] at hnodup
  cases hl : d.label? with
  | none =>
    cases d with
    | absent => cases hd
    | _ => cases hl
  | some l =>
    have hself : ∀ {n : Node}, n.label? = some l → l ∈ n.labels := fun {n} hn => by
      rw [Node.labels_eq, hn]
      simp
    refine hnodup.2.2 (List.mem_flatMap.mpr ⟨d', hd', hself (he.trans hl)⟩) ?_
    exact List.mem_flatMap.mpr ⟨d, List.mem_cons_self, hself hl⟩

theorem forM_selectDecl_lowered {tag : Tag} (hu : (Node.program tag decls).Unshared)
    {s s' : State} (h : Lowered su decls [] s) (hrun : decls.forM (selectDecl su) s = .ok u s') :
    Lowered su decls decls s' := by
  refine forM_induction (I := Lowered su decls) (fun done d rest hsplit t t' ht hd => ?_) h hrun
  refine selectDecl_lowered ht (by rw [hsplit]; simp) (label?_ne_of_split hu hsplit ?_) hd
  cases selectDecl_eq_ok hd with
  | function => rfl
  | var => rfl

theorem reserveDecl_tables {d : Node} {s s' : State} (ht : Tables decls [] s) (hd : d ∈ decls)
    (h : reserveDecl d s = .ok u s') :
    Tables decls [] s' ∧ s'.slots = s.slots ∧ s'.module.globals = s.module.globals ∧
      ∀ q, s'.module.edges q = s.module.edges q := by
  rcases reserveDecl_cases h with rfl | ⟨tag, name, params, result, body, g, rfl, hres⟩
  · exact ⟨ht, rfl, rfl, fun _ => rfl⟩
  · have hspec := reserveFunction_eq_ok hres
    exact ⟨hspec.tables ht hd, hspec.slots, hspec.code .globals, hspec.edges⟩

theorem forM_reserveDecl_tables : ∀ (ns : List Node) (s s' : State), (∀ d ∈ ns, d ∈ decls) →
    Tables decls [] s → ns.forM reserveDecl s = .ok u s' →
      Tables decls [] s' ∧ s'.slots = s.slots ∧ s'.module.globals = s.module.globals ∧
        ∀ q, s'.module.edges q = s.module.edges q := by
  intro ns s s' hsub ht h
  refine forM_invariant (I := fun t => Tables decls [] t ∧ t.slots = s.slots ∧
    t.module.globals = s.module.globals ∧ ∀ q, t.module.edges q = s.module.edges q)
    (fun d hd t t' ht hrun => ?_) ⟨ht, rfl, rfl, fun _ => rfl⟩ h
  obtain ⟨ht, hslots, hglob, hedges⟩ := ht
  obtain ⟨ht', hslots', hglob', hedges'⟩ := reserveDecl_tables ht (hsub d hd) hrun
  exact ⟨ht', hslots'.trans hslots, hglob'.trans hglob, fun q => (hedges' q).trans (hedges q)⟩

theorem tables_init : Tables decls [] {} := by
  constructor <;> simp [functionNames]

/-- Lowering begins behind the declaration of the functions, if there is one. -/
theorem select_eq_ok {tag : Tag} {fin : State} (h : select su (.program tag decls) = .ok u fin) :
    tag.kind = .program ∧ ∃ s, Tables decls [] s ∧ s.slots.owners = [] ∧ s.module.globals = [] ∧
      (∀ q, s.module.edges q = []) ∧ decls.forM (selectDecl su) s = .ok u fin := by
  change selectProgram su (.program tag decls) {} = .ok u fin at h
  rw [selectProgram] at h
  simp only [Node.tag?] at h
  split at h
  · cases h
  · next hkind =>
    refine ⟨Decidable.not_not.mp hkind, ?_⟩
    rw [selectDecls] at h
    split at h
    · rw [bind_eq_ok] at h
      obtain ⟨_, s, hres, h⟩ := h
      obtain ⟨ht, hslots, hglob, hedges⟩ :=
        forM_reserveDecl_tables decls {} s (fun _ hd => hd) tables_init hres
      exact ⟨s, ht, by rw [hslots], by rw [hglob], fun q => (hedges q).trans rfl, h⟩
    · exact ⟨{}, tables_init, rfl, rfl, fun _ => rfl, h⟩

theorem select_isDecl {tag : Tag} {fin : State} (h : select su (.program tag decls) = .ok u fin) :
    tag.kind = .program ∧ ∀ d ∈ decls, IsDecl d := by
  obtain ⟨hkind, s, -, -, -, -, hrun⟩ := select_eq_ok h
  exact ⟨hkind, forM_selectDecl_isDecl decls s fin hrun⟩

theorem select_of_kind (su : Setup) {tag : Tag} (hkind : tag.kind = .program)
    (decls : List Node) : select su (.program tag decls) = selectDecls su decls {} := by
  show selectProgram su (.program tag decls) {} = _
  simp only [selectProgram, Node.tag?, hkind, ne_eq, not_true_eq_false, if_false]

/-- **Selection lays out a program**, provided that it is a tree. -/
theorem select_laid {tag : Tag} {fin : State} (hu : (Node.program tag decls).Unshared)
    (h : select su (.program tag decls) = .ok u fin) : Lowered su decls decls fin := by
  obtain ⟨-, s, ht, howners, hglob, hedges, hrun⟩ := select_eq_ok h
  refine forM_selectDecl_lowered hu ⟨ht, ?_, ?_, ?_, ?_⟩ hrun
  · intro fin _
    rw [hglob, GlobalsCode]
  · intro _ _ _ _ _ hf
    simp at hf
  · rw [howners]
    simp
  · intro f _
    rw [if_neg (by simp [functionNames])]
    exact hedges _

theorem Lowered.graph {fin : State} (h : Lowered su decls decls fin) {g : Nat}
    (hg : g < fin.module.graphs.length) : ∃ tag name params result body,
      .function tag name params result body ∈ decls ∧ ⟨name, g⟩ ∈ fin.module.functions ∧
      FunctionCode su fin g (fun k => fin.module.code ⟨g, k⟩) (fin.module.count g) params body ∧
      GraphLinked su fin.module g := by
  obtain ⟨f, hf, hfg⟩ := h.owned g hg
  obtain ⟨sig, hsig, hname⟩ := h.declared f hf
  obtain ⟨tag, params, body, hd⟩ := h.sources sig hsig
  obtain ⟨g, hmem, hcode⟩ := h.functions tag _ params _ body hd
  cases List.inj_on_of_nodup_map h.names hf hmem hname.symm
  cases hfg
  refine ⟨tag, _, params, _, body, hd, hmem, hcode fin (Grows.refl fin), ?_⟩
  have hlinks := h.links _ hmem
  rwa [if_pos (mem_functionNames hd)] at hlinks

theorem select_program {root : Node} {fin : State} (h : select su root = .ok u fin) :
    ∃ tag decls, root = .program tag decls := by
  change selectProgram su root {} = .ok u fin at h
  rw [selectProgram] at h
  cases root with
  | program tag decls => exact ⟨tag, decls, rfl⟩
  | absent => cases h
  | _ =>
    simp only [Node.tag?] at h
    split at h <;> cases h

end Program

end Isel.Select
