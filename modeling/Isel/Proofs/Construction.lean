import Isel.Proofs.Agreement
import Isel.Proofs.Interning

/-!
# How modules are made

Selection makes every module out of the empty one by steps of five kinds (`Step`): it writes,
jumps from block to block of a graph, records an edge, opens a block or declares a function.
`select_steps` says so of any program: nodes may be shared, and kinds and payloads may
disagree.

What holds of the empty module and is kept by each step therefore holds of every module that
selection makes:

* `Steps.functions_nodup`: no function name is repeated.
* `Steps.owned`: each graph belongs to the function of its place.
* `Steps.literals`: literals have the names that go with their places.
* `Steps.drawn`: the blocks of a graph have names that were drawn one after the other.
* `Steps.jumps`, `Steps.edges`: jumps that no hook puts in, and recorded edges, stay in their graph,
  behind its entry.
-/

namespace Isel.Select

open Isel.Flow Isel.Syntax Isel.Proofs

/-! ## Steps -/

/-- The block is there, in the graph `g`. -/
def Inside (m : Module) (g : Nat) (r : BlockRef) : Prop := r.graph = g ∧ r.index < m.count g

/-- The block is there, in the graph `g`, and not its entry. -/
def Behind (m : Module) (g : Nat) (r : BlockRef) : Prop := 0 < r.index ∧ Inside m g r

def declaredModule (m : Module) (name : String) : Module :=
  { reservedModule m with functions := m.functions ++ [⟨name, m.graphs.length⟩] }

/-- One step in the making of a module. -/
inductive Step (su : Setup) (m : Module) : Module → Prop
  | write {m' : Module} : Write su m m' → Step su m m'
  | jump {g : Nat} {r t : BlockRef} : Inside m g r → Behind m g t →
      Step su m (m.emit r (jumpTo t))
  | edge {g : Nat} {r t : BlockRef} : Inside m g r → Behind m g t →
      Step su m (m.connect r (some t))
  | block {g : Nat} : 0 < m.count g → Step su m (m.addBlock g "" []).1
  | function {name : String} : (∀ f ∈ m.functions, f.name ≠ name) →
      Step su m (declaredModule m name)

abbrev Steps (su : Setup) : Module → Module → Prop := Relation.ReflTransGen (Step su)

section Steps

variable {su : Setup} {m m' : Module} {g : Nat} {r : BlockRef}

theorem Writes.steps (h : Writes su m m') : Steps su m m' :=
  Relation.ReflTransGen.mono (fun _ _ => Step.write) _ _ h

theorem Write.count (h : Write su m m') (g : Nat) : m'.count g = m.count g := by
  cases h with
  | own pt _ => exact pt.count_emit m _ g
  | hook pt _ _ => exact pt.count_emit m _ g
  | literal bytes =>
    obtain ⟨-, more, index, hmore⟩ := literalEntry_spec su bytes m
    rw [hmore]
    rfl

theorem count_declaredModule (m : Module) (name : String) (g : Nat) :
    (declaredModule m name).count g = if g = m.graphs.length then 1 else m.count g :=
  (reservedModule_spec m).1 g

theorem Step.count_le (h : Step su m m') (g : Nat) : m.count g ≤ m'.count g := by
  cases h with
  | write hw => exact Nat.le_of_eq (hw.count g).symm
  | jump => exact Nat.le_of_eq (m.count_modifyBlock _ _ g).symm
  | edge => exact Nat.le_of_eq (m.count_modifyBlock _ _ g).symm
  | block hpos =>
    rw [Module.count_addBlock (Module.lt_of_count_pos hpos)]
    split <;> omega
  | function =>
    rw [count_declaredModule]
    split
    · next hg =>
      rw [Module.count, Module.graph, hg, List.getElem?_eq_none (Nat.le_refl _)]
      exact Nat.zero_le 1
    · exact Nat.le_refl _

theorem Steps.count_le (h : Steps su m m') (g : Nat) : m.count g ≤ m'.count g := by
  induction h with
  | refl => exact Nat.le_refl _
  | tail _ hstep ih => exact Nat.le_trans ih (hstep.count_le g)

theorem Inside.mono (hr : Inside m g r) (h : Steps su m m') : Inside m' g r :=
  ⟨hr.1, Nat.lt_of_lt_of_le hr.2 (h.count_le g)⟩

theorem Behind.mono (hr : Behind m g r) (h : Steps su m m') : Behind m' g r :=
  ⟨hr.1, hr.2.mono h⟩

end Steps

/-! ## Lowering goes by steps -/

section Lowering

variable {su : Setup} {s s' : State} {g : Nat} {r q t : BlockRef} {u : Unit}

theorem Writing.steps {α : Type} {x : Selection α} {a : α} (hx : Writing su x)
    (h : x s = .ok a s') : Steps su s.module s'.module := (hx.writes s a s' h).steps

variable (su) in
theorem openBlock_steps (h : openBlock r s = .ok q s') (hr : Inside s.module g r) :
    Steps su s.module s'.module ∧ Behind s'.module g q := by
  obtain ⟨rfl, hlt⟩ := hr
  have hpos : 0 < s.module.count r.graph := Nat.zero_lt_of_lt hlt
  have hopened := opened_openedModule hpos
  rw [openBlock_apply] at h
  cases h
  refine ⟨?_, hpos, rfl, ?_⟩
  · have hblock : Steps su s.module (s.module.addBlock r.graph "" []).1 := .single (.block hpos)
    have hnew : (s.module.addBlock r.graph "" []).2 = ⟨r.graph, s.module.count r.graph⟩ := by
      rw [Module.addBlock_eq]
    have hbehind : Behind (s.module.addBlock r.graph "" []).1 r.graph
        ⟨r.graph, s.module.count r.graph⟩ := by
      refine ⟨hpos, rfl, ?_⟩
      rw [Module.count_addBlock (Module.lt_of_count_pos hpos), if_pos rfl]
      exact Nat.lt_succ_self _
    show Steps su s.module (openedModule s.module r)
    simp only [openedModule, hnew]
    split
    · exact hblock
    · exact hblock.tail (.edge (Inside.mono ⟨rfl, hlt⟩ hblock) hbehind)
  · rw [hopened.count, if_pos rfl]
    exact Nat.lt_succ_self _

variable (su) in
theorem jump_steps (h : jump r t s = .ok u s') (hr : Inside s.module g r)
    (ht : Behind s.module g t) : Steps su s.module s'.module := by
  have hjump : Steps su s.module (s.module.emit r (jumpTo t)) := .single (.jump hr ht)
  cases h
  dsimp only
  split
  · exact hjump
  · exact hjump.tail (.edge (hr.mono hjump) (ht.mono hjump))

variable (su) in
theorem emitBranch_steps {cond : Slot} {yes no : BlockRef}
    (h : emitBranch r cond yes no s = .ok u s') (hr : Inside s.module g r)
    (hyes : Behind s.module g yes) (hno : Behind s.module g no) :
    Steps su s.module s'.module := by
  rw [emitBranch, bind_eq_ok] at h
  obtain ⟨_, s₁, htest, h⟩ := h
  rw [bind_eq_ok] at h
  obtain ⟨_, s₂, hjump, h⟩ := h
  have h₁ : Steps su s.module s₁.module :=
    (writing_emit (.block r) [.slot cond, .imm 1] (by decide)).steps htest
  have h₂ := jump_steps su hjump (hr.mono h₁) (hyes.mono h₁)
  have h₁₂ := h₁.trans h₂
  exact h₁₂.trans (jump_steps su h (hr.mono h₁₂) (hno.mono h₁₂))

/-- Lowering the statement goes by steps, and comes to a block of the same graph. -/
def Advances (su : Setup) (n : Node) : Prop :=
  ∀ g r s q s', selectStmt su n r s = .ok q s' → Inside s.module g r →
    Steps su s.module s'.module ∧ Inside s'.module g q

theorem selectStmts_steps : ∀ ns : List Node, (∀ n ∈ ns, Advances su n) →
    ∀ (returned : Bool) (r : BlockRef) (s : State) (q : BlockRef) (s' : State),
      selectStmts su returned ns r s = .ok q s' → Inside s.module g r →
        Steps su s.module s'.module ∧ Inside s'.module g q := by
  intro ns
  induction ns with
  | nil =>
    intro _ returned r s q s' h hr
    rw [selectStmts] at h
    cases h
    exact ⟨.refl, hr⟩
  | cons n ns ih =>
    intro hstmt returned r s q s' h hr
    rw [List.forall_mem_cons] at hstmt
    obtain ⟨s₀, s₁, mid, again, hm, -, -, -, hn, hns⟩ := selectStmts_cons_ok h
    rw [← hm] at hr ⊢
    obtain ⟨h₁, hmid⟩ := hstmt.1 g r s₀ mid s₁ hn hr
    obtain ⟨h₂, hq⟩ := ih hstmt.2 again mid s₁ q s' hns hmid
    exact ⟨h₁.trans h₂, hq⟩

theorem openBody_steps {tag : Tag} {stmts : List Node} {first last : BlockRef} {s₁ : State}
    (hstmts : ∀ n ∈ stmts, Advances su n) (hopen : openBody tag r s = .ok first s₁)
    (h : selectStmts su false stmts first s₁ = .ok last s') (hr : Inside s.module g r) :
    Steps su s.module s'.module ∧ Behind s'.module g first ∧ Inside s'.module g last := by
  rw [openBody] at hopen
  split at hopen
  · obtain ⟨h₁, hfirst⟩ := openBlock_steps su hopen hr
    obtain ⟨h₂, hlast⟩ := selectStmts_steps stmts hstmts false first s₁ last s' h hfirst.2
    exact ⟨h₁.trans h₂, hfirst.mono h₂, hlast⟩
  · cases hopen

theorem selectBody_steps {body : Node} {first last : BlockRef}
    (hparts : ∀ n ∈ body.parts, Advances su n)
    (h : selectBody su body r s = .ok (first, last) s') (hr : Inside s.module g r) :
    Steps su s.module s'.module ∧ Behind s'.module g first ∧ Inside s'.module g last := by
  cases body with
  | compound tag stmts =>
    rw [selectBody, bind_eq_ok] at h
    obtain ⟨entry, s₁, hopen, h⟩ := h
    rw [bind_eq_ok] at h
    obtain ⟨q, s₂, hstmts, h⟩ := h
    cases h
    exact openBody_steps hparts hopen hstmts hr
  | absent => simp [selectBody, Node.tag?] at h
  | _ =>
    simp only [selectBody, Node.tag?] at h
    rw [bind_eq_ok] at h
    obtain ⟨_, _, -, h⟩ := h
    cases h

theorem advances_ifThen {tag : Tag} {cond body : Node} (hparts : ∀ n ∈ body.parts, Advances su n) :
    Advances su (.ifThen tag cond body) := by
  intro g r s q s' h hr
  rw [selectStmt, bind_eq_ok] at h
  obtain ⟨slot, s₁, hcond, h⟩ := h
  rw [bind_eq_ok] at h
  obtain ⟨⟨first, last⟩, s₂, hbody, h⟩ := h
  rw [bind_eq_ok] at h
  obtain ⟨exit, s₃, hopen, h⟩ := h
  rw [bind_eq_ok] at h
  obtain ⟨_, s₄, hbranch, h⟩ := h
  rw [bind_eq_ok] at h
  obtain ⟨_, s₅, hjump, h⟩ := h
  cases h
  have h₁ := (writing_selectExpr (.block r) cond).steps hcond
  obtain ⟨h₂, hfirst, hlast⟩ := selectBody_steps hparts hbody (hr.mono h₁)
  obtain ⟨h₃, hexit⟩ := openBlock_steps su hopen hlast
  have h₁₃ := (h₁.trans h₂).trans h₃
  have h₄ := emitBranch_steps su hbranch (hr.mono h₁₃) (hfirst.mono h₃) hexit
  have h₅ := jump_steps su hjump (hlast.mono (h₃.trans h₄)) (hexit.mono h₄)
  exact ⟨(h₁₃.trans h₄).trans h₅, (hexit.mono (h₄.trans h₅)).2⟩

theorem advances_loop {tag : Tag} {cond body : Node} (hparts : ∀ n ∈ body.parts, Advances su n) :
    Advances su (.loop tag cond body) := by
  intro g r s q s' h hr
  rw [selectStmt, bind_eq_ok] at h
  obtain ⟨header, s₁, hheader, h⟩ := h
  rw [bind_eq_ok] at h
  obtain ⟨slot, s₂, hcond, h⟩ := h
  rw [bind_eq_ok] at h
  obtain ⟨⟨first, last⟩, s₃, hbody, h⟩ := h
  rw [bind_eq_ok] at h
  obtain ⟨_, s₄, hjump, h⟩ := h
  rw [bind_eq_ok] at h
  obtain ⟨exit, s₅, hopen, h⟩ := h
  rw [bind_eq_ok] at h
  obtain ⟨_, s₆, hbranch, h⟩ := h
  cases h
  obtain ⟨h₁, hhead⟩ := openBlock_steps su hheader hr
  have h₂ := (writing_selectExpr (.block header) cond).steps hcond
  obtain ⟨h₃, hfirst, hlast⟩ := selectBody_steps hparts hbody (hhead.mono h₂).2
  have hhead₃ := hhead.mono (h₂.trans h₃)
  have h₄ := jump_steps su hjump hlast hhead₃
  obtain ⟨h₅, hexit⟩ := openBlock_steps su hopen (hlast.mono h₄)
  have h₄₅ := h₄.trans h₅
  have h₆ := emitBranch_steps su hbranch (hhead₃.mono h₄₅).2 (hfirst.mono h₄₅) hexit
  exact ⟨(((h₁.trans h₂).trans h₃).trans h₄₅).trans h₆, (hexit.mono h₆).2⟩

/-- A statement without a body leaves control where it is. -/
theorem selectStmt_same {n : Node} (hn : hasBody n = false) (h : selectStmt su n r s = .ok q s') :
    q = r := by
  cases n with
  | compound | ifThen | loop => cases hn
  | ret tag expr =>
    rw [selectStmt] at h
    split at h
    · rw [bind_eq_ok] at h
      obtain ⟨_, _, -, h⟩ := h
      rw [bind_eq_ok] at h
      obtain ⟨_, _, -, h⟩ := h
      cases h
      rfl
    · cases h
      rfl
  | print | scan =>
    rw [selectStmt, bind_eq_ok] at h
    obtain ⟨_, _, -, h⟩ := h
    rw [bind_eq_ok] at h
    obtain ⟨_, _, -, h⟩ := h
    cases h
    rfl
  | _ =>
    simp only [selectStmt] at h
    rw [bind_eq_ok] at h
    obtain ⟨_, _, -, h⟩ := h
    cases h
    rfl

/-- **Lowering a statement goes by steps.** -/
theorem advances_selectStmt : ∀ n : Node, Advances su n := by
  intro n
  induction n using Node.parts_induction with
  | _ n ih ih₂ =>
  cases n with
  | compound tag stmts =>
    intro g r s q s' h hr
    rw [selectStmt, bind_eq_ok] at h
    obtain ⟨entry, s₁, hopen, h⟩ := h
    obtain ⟨hsteps, -, hq⟩ := openBody_steps ih hopen h hr
    exact ⟨hsteps, hq⟩
  | ifThen tag cond body => exact advances_ifThen (ih₂ body (by simp [Node.parts]))
  | loop tag cond body => exact advances_loop (ih₂ body (by simp [Node.parts]))
  | _ =>
    intro g r s q s' h hr
    have hsteps := (writing_selectStmt rfl r).steps h
    rw [selectStmt_same rfl h]
    exact ⟨hsteps, hr.mono hsteps⟩

end Lowering

/-! ## Programs -/

/-- Every function has an entry. -/
def Rooted (m : Module) : Prop := ∀ f ∈ m.functions, 0 < m.count f.graph

section Program

variable {su : Setup} {m m' : Module} {s s' : State} {u : Unit}

theorem Write.functions (h : Write su m m') : m'.functions = m.functions := by
  cases h with
  | own pt _ => exact (pt.emit_rest m _).2.1
  | hook pt _ _ => exact (pt.emit_rest m _).2.1
  | literal bytes =>
    obtain ⟨-, more, index, hmore⟩ := literalEntry_spec su bytes m
    rw [hmore]

/-- A step declares at most one function. -/
theorem Step.functions (h : Step su m m') : m'.functions = m.functions ∨
    ∃ name, (∀ f ∈ m.functions, f.name ≠ name) ∧ m' = declaredModule m name := by
  cases h with
  | write hw => exact .inl hw.functions
  | jump | edge => exact .inl rfl
  | @block g _ => exact .inl (m.addBlock_rest g).2.1
  | function hfresh => exact .inr ⟨_, hfresh, rfl⟩

theorem Rooted.step (hm : Rooted m) (h : Step su m m') : Rooted m' := by
  rcases h.functions with hsame | ⟨name, -, rfl⟩
  · intro f hf
    rw [hsame] at hf
    exact Nat.lt_of_lt_of_le (hm f hf) (h.count_le f.graph)
  · intro f hf
    rcases List.mem_append.mp hf with hf | hf
    · exact Nat.lt_of_lt_of_le (hm f hf) (h.count_le f.graph)
    · rw [List.mem_singleton.mp hf, count_declaredModule, if_pos rfl]
      exact Nat.one_pos

theorem Rooted.steps (hm : Rooted m) (h : Steps su m m') : Rooted m' := by
  induction h with
  | refl => exact hm
  | tail _ hstep ih => exact ih.step hstep

variable (su) in
theorem reserveFunction_steps {tag : Tag} {name : String} {result : ValueType} {g : Nat}
    (h : reserveFunction tag name result s = .ok g s') : Steps su s.module s'.module := by
  have hfresh := (reserveFunction_eq_ok h).fresh
  have hfun : (reservedModule s.module).functions = s.module.functions :=
    (reservedModule_spec s.module).2.2.2.2.1
  rw [reserveFunction_apply, Module.addFunction, Module.function?, hfun] at h
  split at h
  · cases h
  · next m hadd =>
    split at hadd
    · cases hadd
    · cases hadd
      cases h
      exact .single (.function hfresh)

variable (su) in
theorem functionGraph_steps {tag : Tag} {name : String} {result : ValueType} {g : Nat}
    (hroot : Rooted s.module) (h : functionGraph tag name result s = .ok g s') :
    Steps su s.module s'.module ∧ Inside s'.module g ⟨g, 0⟩ := by
  rcases functionGraph_cases h with ⟨rfl, hmem, -⟩ | hres
  · exact ⟨.refl, rfl, hroot _ hmem⟩
  · refine ⟨reserveFunction_steps su hres, rfl, ?_⟩
    have hcount := (reserveFunction_eq_ok hres).count g
    rw [if_pos rfl] at hcount
    rw [hcount]
    exact Nat.one_pos

/-- The parts of a function that is lowered: its graph, its parameters if there are any, and its
body. -/
theorem selectFunction_eq_ok {tag : Tag} {name : String} {params : List Node}
    {result : ValueType} {body : Node}
    (h : selectFunction su tag name params result body s = .ok u s') :
    ∃ g s₁ s₂ ends, functionGraph tag name result s = .ok g s₁ ∧
      (params = [] ∧ s₂ = s₁ ∨ ∃ slots s₃, selectParams name params s₁ = .ok slots s₃ ∧
        serve su tag.pos (.block ⟨g, 0⟩) (.paramsIn slots) s₃ = .ok ⟨⟩ s₂) ∧
      selectBody su body ⟨g, 0⟩ s₂ = .ok ends s' := by
  rw [selectFunction, bind_eq_ok] at h
  obtain ⟨g, s₁, hgraph, h⟩ := h
  have hbody : ∀ {s₂ : State}, (if body.tag?.any fun t => t.kind == .compoundStmt then do
        let _ ← selectBody su body ⟨g, 0⟩
      else fail tag.pos (.noBody name) : Selection Unit) s₂ = .ok u s' →
        ∃ ends, selectBody su body ⟨g, 0⟩ s₂ = .ok ends s' := by
    intro s₂ h
    split at h
    · rw [bind_eq_ok] at h
      obtain ⟨ends, s₃, hbody, h⟩ := h
      cases h
      exact ⟨ends, hbody⟩
    · cases h
  dsimp only at h
  split at h
  · rw [bind_eq_ok] at h
    obtain ⟨slots, s₃, hparams, h⟩ := h
    rw [bind_eq_ok] at h
    obtain ⟨_, s₂, hserve, h⟩ := h
    obtain ⟨ends, hends⟩ := hbody h
    exact ⟨g, s₁, s₂, ends, hgraph, .inr ⟨slots, s₃, hparams, hserve⟩, hends⟩
  · next hempty =>
    obtain ⟨ends, hends⟩ := hbody h
    exact ⟨g, s₁, s₁, ends, hgraph, .inl ⟨by simpa using hempty, rfl⟩, hends⟩

theorem params_steps {name : String} {params : List Node} {slots : List Slot}
    {pos : Source.Position} {pt : Point} {s₁ : State}
    (hparams : selectParams name params s = .ok slots s₁)
    (hserve : serve su pos pt (.paramsIn slots) s₁ = .ok u s') :
    Steps su s.module s'.module := by
  have hread : Writing su (selectParams name params) := writing_selectParams name params
  exact (hread.steps hparams).trans ((writing_serve ..).steps hserve)

theorem selectFunction_steps {tag : Tag} {name : String} {params : List Node}
    {result : ValueType} {body : Node} (hroot : Rooted s.module)
    (h : selectFunction su tag name params result body s = .ok u s') :
    Steps su s.module s'.module := by
  obtain ⟨g, s₁, s₂, ⟨first, last⟩, hgraph, hparams, hbody⟩ := selectFunction_eq_ok h
  obtain ⟨h₁, hentry⟩ := functionGraph_steps su hroot hgraph
  have h₂ : Steps su s₁.module s₂.module := by
    rcases hparams with ⟨-, rfl⟩ | ⟨slots, s₃, hparams, hserve⟩
    · exact .refl
    · exact params_steps hparams hserve
  have h₃ := (selectBody_steps (fun n _ => advances_selectStmt n) hbody (hentry.mono h₂)).1
  exact (h₁.trans h₂).trans h₃

theorem selectDecl_steps {d : Node} (hroot : Rooted s.module) (h : selectDecl su d s = .ok u s') :
    Steps su s.module s'.module := by
  cases selectDecl_eq_ok h with
  | @function tag name params result body hk =>
    simp only [selectDecl, Node.tag?, hk] at h
    exact selectFunction_steps hroot h
  | var hk =>
    simp only [selectDecl, Node.tag?, hk] at h
    exact (writing_selectVar ..).steps h

variable (su) in
theorem reserveDecl_steps {d : Node} (h : reserveDecl d s = .ok u s') :
    Steps su s.module s'.module := by
  rcases reserveDecl_cases h with rfl | ⟨_, _, _, _, _, _, -, hres⟩
  · exact .refl
  · exact reserveFunction_steps su hres

/-- What goes by steps for each declaration goes by steps for all of them. -/
theorem forM_steps {f : Node → Selection Unit}
    (hf : ∀ d s s', Rooted s.module → f d s = .ok u s' → Steps su s.module s'.module) :
    ∀ (ds : List Node) (s s' : State), Rooted s.module → ds.forM f s = .ok u s' →
      Steps su s.module s'.module := by
  intro ds s s' hroot h
  refine (forM_invariant (I := fun t => Rooted t.module ∧ Steps su s.module t.module)
    (fun d _ t t' ht hd => ?_) ⟨hroot, .refl⟩ h).2
  have hsteps := hf d t t' ht.1 hd
  exact ⟨ht.1.steps hsteps, ht.2.trans hsteps⟩

/-- Lowers the declarations `done` that come first in a program. -/
def selectDone (su : Setup) (decls done : List Node) : Selection Unit := do
  if su.config.uses .forwardCalls then decls.forM reserveDecl
  done.forM (selectDecl su)

theorem selectDone_self (su : Setup) (decls : List Node) :
    selectDone su decls decls = selectDecls su decls := rfl

theorem selectDone_steps {decls done : List Node} (h : selectDone su decls done {} = .ok u s) :
    Steps su {} s.module := by
  have hempty : Rooted ({} : State).module := by simp [Rooted]
  rw [selectDone] at h
  split at h
  · rw [bind_eq_ok] at h
    obtain ⟨_, s₁, hres, h⟩ := h
    have h₁ : Steps su {} s₁.module :=
      forM_steps (fun d s s' _ h => reserveDecl_steps su h) decls {} s₁ hempty hres
    exact h₁.trans (forM_steps (fun d s s' => selectDecl_steps) done s₁ s (hempty.steps h₁) h)
  · exact forM_steps (fun d s s' => selectDecl_steps) done {} s hempty h

/-- **Selection makes its module by steps.** -/
theorem select_steps {root : Node} {fin : State} (h : select su root = .ok u fin) :
    Steps su {} fin.module := by
  obtain ⟨tag, decls, rfl⟩ := select_program h
  rw [select_of_kind su (select_isDecl h).1, ← selectDone_self] at h
  exact selectDone_steps h

end Program

/-! ## What every step keeps -/

section Names

variable {su : Setup} {m m' : Module}

theorem Steps.functions_nodup (h : Steps su {} m) : (m.functions.map Function.name).Nodup := by
  induction h with
  | refl => exact List.nodup_nil
  | tail _ hstep ih =>
    rcases hstep.functions with hsame | ⟨name, hfresh, rfl⟩
    · rwa [hsame]
    · rw [declaredModule, List.map_append]
      refine ih.append (List.nodup_singleton _) ?_
      simpa [List.disjoint_singleton] using hfresh

/-- The graphs belong to the functions, each to the one of its place. -/
def Owned (m : Module) : Prop := m.functions.map Flow.Function.graph = List.range m.graphs.length

theorem Owned.of_same (hm : Owned m) (hfunctions : m'.functions = m.functions)
    (hgraphs : m'.graphs.length = m.graphs.length) : Owned m' := by
  unfold Owned
  rw [hfunctions, hgraphs]
  exact hm

theorem Owned.step (hm : Owned m) (h : Step su m m') : Owned m' := by
  have hmodify : ∀ (r : BlockRef) (f : Block → Block), Owned (m.modifyBlock r f) :=
    fun r f => hm.of_same rfl (by simp [Module.modifyBlock])
  cases h with
  | write hw =>
    refine hm.of_same hw.functions ?_
    cases hw with
    | own pt _ => exact (pt.emit_rest m _).1
    | hook pt _ _ => exact (pt.emit_rest m _).1
    | literal bytes =>
      obtain ⟨-, more, index, hmore⟩ := literalEntry_spec su bytes m
      rw [hmore]
  | @jump g r t => exact hmodify r _
  | @edge g r t => exact hmodify r _
  | @block g _ => exact hm.of_same (m.addBlock_rest g).2.1 (m.addBlock_rest g).1
  | @function name _ =>
    have hlength : (declaredModule m name).graphs.length = m.graphs.length + 1 :=
      (reservedModule_spec m).2.2.2.1
    unfold Owned
    rw [hlength, List.range_succ, declaredModule, List.map_append, hm]
    rfl

theorem Steps.owned (h : Steps su {} m) : Owned m := by
  induction h with
  | refl => rfl
  | tail _ hstep ih => exact ih.step hstep

theorem Owned.nodup (hm : Owned m) : (m.functions.map Flow.Function.graph).Nodup := by
  rw [hm]
  exact List.nodup_range

theorem Owned.mem {g : Nat} (hm : Owned m) :
    g < m.graphs.length ↔ ∃ f ∈ m.functions, f.graph = g := by
  rw [← List.mem_range, ← hm, List.mem_map]

/-- A string is entered, if at all, under the name that goes with its place. -/
theorem literals_literalEntry (su : Setup) (bytes : List UInt8) (m : Module) :
    (literalEntry su bytes m).1.literals = m.literals ∨
      ∃ l : Literal, l.name = literalName m.literals.length ∧
        (literalEntry su bytes m).1.literals = m.literals ++ [l] := by
  have hadd : ∀ digest : Digest, ∃ l : Literal, l.name = literalName m.literals.length ∧
      (m.addLiteral digest (literalName m.literals.length) bytes).1.literals = m.literals ++ [l] :=
    fun digest => ⟨⟨m.literals.length, _, bytes⟩, rfl, rfl⟩
  rw [literalEntry]
  split
  · rw [Module.internLiteral]
    split
    · exact .inl rfl
    · exact .inr (hadd su.digest)
  · exact .inr (hadd su.digest)

theorem Step.literals (h : Step su m m') : m'.literals = m.literals ∨
    ∃ l : Literal, l.name = literalName m.literals.length ∧ m'.literals = m.literals ++ [l] := by
  cases h with
  | write hw =>
    cases hw with
    | own pt _ => exact .inl (pt.emit_rest m _).2.2
    | hook pt _ _ => exact .inl (pt.emit_rest m _).2.2
    | literal bytes => exact literals_literalEntry su bytes m
  | jump | edge => exact .inl rfl
  | @block g _ => exact .inl (m.addBlock_rest g).2.2.2
  | function => exact .inl (reservedModule_spec m).2.2.2.2.2

theorem Steps.literals (h : Steps su {} m) :
    m.literals.map Literal.name = (List.range m.literals.length).map literalName := by
  induction h with
  | refl => rfl
  | tail _ hstep ih =>
    rcases hstep.literals with hsame | ⟨l, hname, hmore⟩
    · rwa [hsame]
    · simp [hmore, ih, hname, List.range_succ]

theorem indexed_literalEntry (su : Setup) (h : m.Indexed su.digest) (bytes : List UInt8) :
    (literalEntry su bytes m).1.Indexed su.digest := by
  rw [literalEntry]
  split
  · exact h.internLiteral _ bytes
  · exact h.addLiteral _ bytes

theorem Step.indexed (h : Step su m m') (hm : m.Indexed su.digest) : m'.Indexed su.digest := by
  cases h with
  | write hw =>
    cases hw with
    | own pt _ => exact hm.congr (pt.emit_rest m _).2.2 (pt.interned_emit m _)
    | hook pt _ _ => exact hm.congr (pt.emit_rest m _).2.2 (pt.interned_emit m _)
    | literal bytes => exact indexed_literalEntry su hm bytes
  | jump | edge => exact hm.congr rfl rfl
  | @block g _ => exact hm.congr (m.addBlock_rest g).2.2.2 (m.interned_addBlock g)
  | function => exact hm.congr (reservedModule_spec m).2.2.2.2.2 (interned_reservedModule m)

theorem Steps.indexed (h : Steps su {} m) : m.Indexed su.digest := by
  induction h with
  | refl => exact Module.indexed_empty su.digest
  | tail _ hstep ih => exact hstep.indexed ih

end Names

/-- The names of the blocks of a graph, in order. -/
def labels (m : Module) (g : Nat) : List String := (m.graph g).blocks.map Block.name

/-- All block names were drawn from the count of the module, those of one graph one after the
other. -/
def Drawn (m : Module) : Prop :=
  ∀ g, (m.graph g).ownNames = none ∧ ∃ draws : List Nat,
    labels m g = draws.map generatedName ∧ draws.Pairwise (· < ·) ∧ ∀ n ∈ draws, n < m.namesDrawn

section Drawn

variable {su : Setup} {m m' : Module} {g : Nat}

theorem labels_modifyBlock {f : Block → Block} (hf : ∀ b, (f b).name = b.name) (m : Module)
    (r : BlockRef) (g : Nat) : labels (m.modifyBlock r f) g = labels m g := by
  rw [labels, labels, Module.graph_modifyBlock]
  split
  · refine List.ext_getElem? fun k => ?_
    simp only [List.getElem?_map, List.getElem?_modify]
    cases (m.graph g).blocks[k]? with
    | none => rfl
    | some b => by_cases hk : r.index = k <;> simp [hk, hf]
  · rfl

theorem Drawn.modifyBlock (hm : Drawn m) (r : BlockRef) (f : Block → Block)
    (hf : ∀ b, (f b).name = b.name) : Drawn (m.modifyBlock r f) := by
  intro g
  refine ⟨?_, ?_⟩
  · rw [Module.graph_modifyBlock]
    split <;> exact (hm g).1
  · rw [labels_modifyBlock hf]
    exact (hm g).2

theorem graph_addBlock (hown : (m.graph g).ownNames = none) (hg : g < m.graphs.length) (q : Nat) :
    (m.addBlock g "" []).1.graph q = if q = g then
      { m.graph q with blocks := (m.graph q).blocks ++
        [{ name := generatedName m.namesDrawn, instrs := [] }] } else m.graph q := by
  have hdraw : m.drawNameFor g = m.drawName := by rw [Module.drawNameFor, hown]
  rw [Module.addBlock_eq, hdraw]
  exact Module.graph_modify m _ g q hg

theorem namesDrawn_addBlock (hown : (m.graph g).ownNames = none) :
    (m.addBlock g "" []).1.namesDrawn = m.namesDrawn + 1 := by
  have hdraw : m.drawNameFor g = m.drawName := by rw [Module.drawNameFor, hown]
  rw [Module.addBlock_eq, hdraw]
  rfl

theorem Drawn.addBlock (hm : Drawn m) (hg : g < m.graphs.length) :
    Drawn (m.addBlock g "" []).1 := by
  intro q
  obtain ⟨hown, draws, hlabels, hsorted, hbound⟩ := hm q
  rw [labels, graph_addBlock (hm g).1 hg, namesDrawn_addBlock (hm g).1]
  by_cases hq : q = g
  · -- The new number is above all that were drawn before.
    rw [if_pos hq]
    refine ⟨hown, draws ++ [m.namesDrawn], ?_, ?_, ?_⟩
    · rw [List.map_append, List.map_append, ← hlabels]
      rfl
    · rw [List.pairwise_append]
      exact ⟨hsorted, List.pairwise_singleton _ _, by simpa using hbound⟩
    · intro n hn
      rcases List.mem_append.mp hn with hn | hn
      · exact Nat.lt_succ_of_lt (hbound n hn)
      · rw [List.mem_singleton.mp hn]
        exact Nat.lt_succ_self _
  · rw [if_neg hq]
    exact ⟨hown, draws, hlabels, hsorted, fun n hn => Nat.lt_succ_of_lt (hbound n hn)⟩

theorem Drawn.addGraph (hm : Drawn m) : Drawn (m.addGraph false).1 := by
  intro q
  refine ⟨?_, ?_⟩
  · have hq := (hm q).1
    simp only [Module.addGraph, Module.graph, List.getElem?_append] at hq ⊢
    split
    · exact hq
    · cases q - m.graphs.length <;> rfl
  · rw [labels, graph_addGraph]
    exact (hm q).2

theorem Drawn.step (hm : Drawn m) (h : Step su m m') : Drawn m' := by
  have hemit : ∀ (pt : Point) (i : Instr), Drawn (pt.emit m i) := by
    intro pt i
    cases pt with
    | globals => exact hm
    | block r => exact hm.modifyBlock r (·.append i) fun _ => rfl
  cases h with
  | write hw =>
    cases hw with
    | own pt _ => exact hemit pt _
    | hook pt _ _ => exact hemit pt _
    | literal bytes =>
      obtain ⟨-, more, index, hmore⟩ := literalEntry_spec su bytes m
      rw [hmore]
      exact hm
  | @jump g r t => exact hemit (.block r) _
  | @edge g r t => exact hm.modifyBlock r (·.connect (some t)) fun _ => rfl
  | block hpos => exact hm.addBlock (Module.lt_of_count_pos hpos)
  | function =>
    have hlt : m.graphs.length < (m.addGraph false).1.graphs.length := by simp [Module.addGraph]
    exact hm.addGraph.addBlock hlt

theorem Steps.drawn (h : Steps su {} m) : Drawn m := by
  induction h with
  | refl => exact fun g => ⟨rfl, [], rfl, List.Pairwise.nil, by simp⟩
  | tail _ hstep ih => exact ih.step hstep

theorem labels_addBlock (hm : Drawn m) (hg : g < m.graphs.length) (q : Nat) :
    labels (m.addBlock g "" []).1 q =
      labels m q ++ if q = g then [generatedName m.namesDrawn] else [] := by
  rw [labels, labels, graph_addBlock (hm g).1 hg]
  split
  · rw [List.map_append]
    rfl
  · rw [List.append_nil]

/-- A step gives at most one block a name, the one that is drawn next. -/
theorem Step.labels (hm : Drawn m) (h : Step su m m') :
    ((∀ q, labels m' q = labels m q) ∧ m'.namesDrawn = m.namesDrawn) ∨
      ∃ g, g < m'.graphs.length ∧
        (∀ q, labels m' q = labels m q ++ if q = g then [generatedName m.namesDrawn] else []) ∧
        m'.namesDrawn = m.namesDrawn + 1 := by
  have hemit : ∀ (pt : Point) (i : Instr),
      (∀ q, Select.labels (pt.emit m i) q = Select.labels m q) ∧
        (pt.emit m i).namesDrawn = m.namesDrawn := by
    intro pt i
    cases pt with
    | globals => exact ⟨fun _ => rfl, rfl⟩
    | block r => exact ⟨labels_modifyBlock (f := (·.append i)) (fun _ => rfl) m r, rfl⟩
  cases h with
  | write hw =>
    cases hw with
    | own pt _ => exact .inl (hemit pt _)
    | hook pt _ _ => exact .inl (hemit pt _)
    | literal bytes =>
      obtain ⟨-, more, index, hmore⟩ := literalEntry_spec su bytes m
      rw [hmore]
      exact .inl ⟨fun _ => rfl, rfl⟩
  | @jump g r t => exact .inl (hemit (.block r) _)
  | @edge g r t =>
    exact .inl ⟨labels_modifyBlock (f := (·.connect (some t))) (fun _ => rfl) m r, rfl⟩
  | @block g hpos =>
    have hlt := Module.lt_of_count_pos hpos
    refine .inr ⟨g, ?_, labels_addBlock hm hlt, namesDrawn_addBlock (hm g).1⟩
    rwa [(m.addBlock_rest g).1]
  | function =>
    have hlt : m.graphs.length < (m.addGraph false).1.graphs.length := by simp [Module.addGraph]
    refine .inr ⟨m.graphs.length, ?_, fun q => (labels_addBlock hm.addGraph hlt q).trans ?_,
      namesDrawn_addBlock (hm.addGraph _).1⟩
    · show m.graphs.length < (reservedModule m).graphs.length
      rw [(reservedModule_spec m).2.2.2.1]
      exact Nat.lt_succ_self _
    · rw [Select.labels, graph_addGraph]
      rfl

end Drawn

/-- The instruction is part of an answer of the hooks. -/
def Hooked (su : Setup) (i : Instr) : Prop := ∃ request out, Answered su request out ∧ i ∈ out

/-- All instructions that hooks put in have the property. -/
def HooksEmit (su : Setup) (P : Instr → Prop) : Prop := ∀ i, Hooked su i → P i

/-- Jumps that no hook puts in stay in their graph, behind its entry. -/
def JumpsBehind (su : Setup) (m : Module) : Prop :=
  ∀ r, ∀ i ∈ m.code r, i.op = .jump → Hooked su i ∨ ∃ t, i = jumpTo t ∧ Behind m r.graph t

section Jumps

variable {su : Setup} {m m' : Module}

theorem mem_code_emit {pt : Point} {i j : Instr} {r : BlockRef} (h : j ∈ (pt.emit m i).code r) :
    j ∈ m.code r ∨ pt = .block r ∧ j = i := by
  cases pt with
  | globals => exact .inl h
  | block q =>
    rw [Point.emit, Module.emit, Module.code, Module.block?_modifyBlock] at h
    split at h
    · next hr =>
      subst hr
      rw [Module.code]
      cases hb : m.block? r with
      | none => simp [hb] at h
      | some b => simpa [hb, Block.append] using h
    · exact .inl h

/-- What a step puts into a block: the answer of a hook, an instruction that does not jump, or a
jump behind the entry. -/
theorem Step.mem_code {r : BlockRef} {j : Instr} (h : Step su m m') (hj : j ∈ m'.code r) :
    j ∈ m.code r ∨ Hooked su j ∨ j.op ≠ .jump ∨ ∃ t, j = jumpTo t ∧ Behind m r.graph t := by
  have hwritten : ∀ op ∈ writtenOpcodes, op ≠ .jump := by decide
  cases h with
  | write hw =>
    cases hw with
    | own pt hop =>
      refine (mem_code_emit hj).imp_right fun ⟨_, heq⟩ => .inr (.inl ?_)
      rw [heq]
      exact hwritten _ hop
    | hook pt hout hi =>
      refine (mem_code_emit hj).imp_right fun ⟨_, heq⟩ => .inl ?_
      rw [heq]
      exact ⟨_, _, hout, hi⟩
    | literal bytes =>
      obtain ⟨-, more, index, hmore⟩ := literalEntry_spec su bytes m
      rw [hmore] at hj
      exact .inl hj
  | @jump g q t hq ht =>
    have hpt : j ∈ ((Point.block q).emit m (jumpTo t)).code r := hj
    refine (mem_code_emit hpt).imp_right fun ⟨hqr, heq⟩ => .inr (.inr ⟨t, heq, ?_⟩)
    cases hqr
    rw [hq.1]
    exact ht
  | edge =>
    rw [Module.code_connect] at hj
    exact .inl hj
  | block hpos =>
    rw [Module.code_addBlock (Module.lt_of_count_pos hpos)] at hj
    exact .inl hj
  | function =>
    have hcode : (reservedModule m).code r = m.code r := (reservedModule_spec m).2.1 (.block r)
    exact .inl (hcode ▸ hj)

theorem JumpsBehind.step (hm : JumpsBehind su m) (h : Step su m m') : JumpsBehind su m' := by
  intro r j hj hop
  rcases h.mem_code hj with hold | hhook | hne | ⟨t, rfl, ht⟩
  · refine (hm r j hold hop).imp_right fun ⟨t, heq, ht⟩ => ⟨t, heq, ?_⟩
    exact ht.mono (.single h)
  · exact .inl hhook
  · exact absurd hop hne
  · exact .inr ⟨t, rfl, ht.mono (.single h)⟩

end Jumps

/-- Recorded edges stay in their graph, and lead behind its entry. -/
def EdgesBehind (m : Module) : Prop :=
  ∀ r, ∀ t ∈ m.edges r, ∃ q, t = some q ∧ Behind m r.graph q

section Edges

variable {su : Setup} {m m' : Module}

theorem Step.mem_edges {r : BlockRef} {t : Option BlockRef} (h : Step su m m')
    (ht : t ∈ m'.edges r) : t ∈ m.edges r ∨ ∃ q, t = some q ∧ Behind m r.graph q := by
  cases h with
  | write hw =>
    rw [Writes.edges (.single hw)] at ht
    exact .inl ht
  | jump =>
    rw [Module.edges_emit] at ht
    exact .inl ht
  | @edge g q target hq htarget =>
    obtain ⟨rfl, hlt⟩ := hq
    rw [Module.edges_connect hlt] at ht
    split at ht
    · next hr =>
      subst hr
      rcases List.mem_append.mp ht with ht | ht
      · exact .inl ht
      · exact .inr ⟨target, List.mem_singleton.mp ht, htarget⟩
    · exact .inl ht
  | block hpos =>
    rw [Module.edges_addBlock (Module.lt_of_count_pos hpos)] at ht
    exact .inl ht
  | function =>
    have hedges : (reservedModule m).edges r = m.edges r := (reservedModule_spec m).2.2.1 r
    exact .inl (hedges ▸ ht)

theorem Steps.edges (h : Steps su {} m) : EdgesBehind m := by
  induction h with
  | refl =>
    intro r t ht
    cases ht
  | tail _ hstep ih =>
    intro r t ht
    rcases hstep.mem_edges ht with hold | ⟨q, heq, hq⟩
    · obtain ⟨q, heq, hq⟩ := ih r t hold
      exact ⟨q, heq, hq.mono (.single hstep)⟩
    · exact ⟨q, heq, hq.mono (.single hstep)⟩

end Edges

end Isel.Select
