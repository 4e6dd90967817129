import Mathlib.Data.List.TakeWhile
import Isel.Il.Render
import Isel.Proofs.Calls
import Isel.Proofs.Encodable
import Isel.Proofs.Translation

/-!
# Selected modules have a text

The language of texts has no stack.  Instructions that work on it are the only ones that a
selected module may have and that have no place in a text, so a module that selection makes has
a text unless control may come to one of them: `select_translates`.

* `Placed` lists the instructions that control falls past in a selected module, and `Flowing`
  says of code that up to its first `RET`, `JUMP` or `TST` it has only these, and that a `TST`
  has its two jumps.
* `Settles code x` says of the outcome of a translation that it depends on the stack alone: there
  is one if no instruction of `code` works on the stack, and otherwise one that does is refused.
  The outcomes of parts are put together by `Settles.bind`.
* `Translatable` holds of every module that selection comes through; nodes may be shared.
-/

namespace Isel.Flow

/-- The instruction works on the stack. -/
def Instr.OnStack (i : Instr) : Prop := i.op = .push ∨ i.op = .pop

instance (i : Instr) : Decidable i.OnStack := inferInstanceAs (Decidable (_ ∨ _))

end Isel.Flow

namespace Isel.Il

open Isel.Flow Isel.Proofs Isel.Select

/-! ## Outcomes -/

/-- The outcome of a translation in which `code` has its place. -/
inductive Settles {α : Type} (code : List Instr) : Except Stop α → Prop
  | ok {a : α} : (∀ i ∈ code, ¬i.OnStack) → Settles code (.ok a)
  | fault {fn : String} {i : Instr} : i ∈ code → i.OnStack →
      Settles code (.error (.fault fn (.noLowering i)))

section Settles

variable {α β : Type} {code code' : List Instr} {x : Except Stop α}

theorem settles_nil (a : α) : Settles [] (.ok a) := .ok (by simp)

theorem Settles.bind {f : α → Except Stop β} (hx : Settles code x)
    (hf : ∀ a, Settles code' (f a)) : Settles (code ++ code') (x >>= f) := by
  cases hx with
  | @ok a hnone =>
    show Settles (code ++ code') (f a)
    have hfa := hf a
    generalize f a = y at hfa
    cases hfa with
    | ok hnone' => exact .ok (List.forall_mem_append.mpr ⟨hnone, hnone'⟩)
    | fault hi hstack => exact .fault (List.mem_append_right _ hi) hstack
  | fault hi hstack => exact .fault (List.mem_append_left _ hi) hstack

theorem Settles.map (f : α → β) (hx : Settles code x) :
    Settles code (x >>= fun a => pure (f a)) := by
  have h := hx.bind fun a => settles_nil (f a)
  rwa [List.append_nil] at h

/-- There is an outcome exactly if nothing works on the stack. -/
theorem Settles.error_iff (hx : Settles code x) :
    (∃ e, x = .error e) ↔ ∃ i ∈ code, i.OnStack := by
  cases hx with
  | ok hnone =>
    refine ⟨fun ⟨e, he⟩ => (by cases he), fun ⟨i, hi, hstack⟩ => absurd hstack (hnone i hi)⟩
  | fault hi hstack => exact ⟨fun _ => ⟨_, hi, hstack⟩, fun _ => ⟨_, rfl⟩⟩

theorem Settles.error_eq (hx : Settles code x) {e : Stop} (he : x = .error e) :
    ∃ fn i, i ∈ code ∧ i.OnStack ∧ e = .fault fn (.noLowering i) := by
  cases hx with
  | ok => cases he
  | fault hi hstack =>
    cases he
    exact ⟨_, _, hi, hstack, rfl⟩

end Settles

/-! ## Instructions -/

/-- The instructions that control falls past in a selected module. -/
inductive Placed (m : Module) : Instr → Prop
  | expr {i : Instr} : ExprInstr m i → Placed m i
  | simple {i : Instr} : Simple i → Placed m i

/-- Up to where its text ends, the code has only instructions that have a place, and a test has
its two jumps. -/
inductive Flowing (m : Module) : List Instr → Prop
  | nil : Flowing m []
  | cons {i : Instr} {rest : List Instr} : Placed m i → Flowing m rest → Flowing m (i :: rest)
  | ret (rest : List Instr) : Flowing m (⟨.ret, []⟩ :: rest)
  | jump (t : BlockRef) (rest : List Instr) : Flowing m (jumpTo t :: rest)
  | branch (slot : Slot) (yes no : BlockRef) (rest : List Instr) :
      Flowing m (branchTo slot yes no ++ rest)

section Flowing

variable {m m' : Module} {i : Instr} {code code' : List Instr}

theorem Placed.mono (h : Placed m i) (hfun : m.functions ⊆ m'.functions) : Placed m' i := by
  cases h with
  | expr hi =>
    refine .expr ?_
    cases hi with
    | load dst x => exact .load dst x
    | mov dst source => exact .mov dst source
    | binary dst lhs rhs hop => exact .binary dst lhs rhs hop
    | call hf => exact .call (hfun hf)
  | simple hi => exact .simple hi

theorem Placed.endsText (h : Placed m i) : endsText i = false := by
  cases h with
  | expr hi =>
    have hall : ∀ op ∈ exprOpcodes, (op == .tst || op == .jump || op == .ret) = false := by decide
    exact hall i.op hi.op_mem
  | simple hi => cases hi <;> rfl

theorem Flowing.mono (h : Flowing m code) (hfun : m.functions ⊆ m'.functions) :
    Flowing m' code := by
  induction h with
  | nil => exact .nil
  | cons hi _ ih => exact .cons (hi.mono hfun) ih
  | ret rest => exact .ret rest
  | jump t rest => exact .jump t rest
  | branch slot yes no rest => exact .branch slot yes no rest

theorem Flowing.append (h : Flowing m code) (h' : Flowing m code') :
    Flowing m (code ++ code') := by
  induction h with
  | nil => exact h'
  | cons hi _ ih => exact .cons hi ih
  | ret rest => exact .ret _
  | jump t rest => exact .jump t _
  | branch slot yes no rest =>
    rw [List.append_assoc]
    exact .branch slot yes no _

theorem flowing_of_placed (h : ∀ i ∈ code, Placed m i) : Flowing m code := by
  induction code with
  | nil => exact .nil
  | cons i code ih =>
    rw [List.forall_mem_cons] at h
    exact .cons h.1 (ih h.2)

theorem lived_of_placed (h : ∀ i ∈ code, Placed m i) : lived code = code := by
  refine List.takeWhile_eq_self_iff.mpr fun i hi => ?_
  rw [(h i hi).endsText]
  rfl

end Flowing

/-! ## Texts -/

section Texts

variable {m : Module} {fn : String} {flag : Nat} {i : Instr} {code : List Instr}

theorem effectLines_of_call {f : Flow.Function} (hop : i.op = .call)
    (hf : m.functionAt? i.target? = some f) : effectLines m fn i = .ok [.call f.name] := by
  simp only [effectLines, hop, hf]

variable (hentries : ∀ f ∈ m.functions, m.functionAt? (some ⟨f.graph, 0⟩) = some f)
include hentries

theorem effectLines_of_expr (h : ExprInstr m i) : ∃ lines, effectLines m fn i = .ok lines := by
  cases h with
  | load dst x => exact ⟨_, effectLines_of_computes rfl (.copy (.inl rfl))⟩
  | mov dst source => exact ⟨_, effectLines_of_computes rfl (.copy (.inr rfl))⟩
  | @binary op dst lhs rhs hop =>
    have hall : ∀ op ∈ binaryOpcodes, op.defines = true ∧ op.isInplace = false ∧
        (binOp? op).isSome = true := by decide
    obtain ⟨hdefines, hplace, hbin⟩ := hall op hop
    obtain ⟨bin, hbin⟩ := Option.isSome_iff_exists.mp hbin
    have hdef : Instr.def? ⟨op, [.slot dst, .slot lhs, .slot rhs]⟩ = some dst := by
      simp [Instr.def?, hdefines, Operand.slot?]
    exact ⟨_, effectLines_of_computes hdef (.combine hbin hplace)⟩
  | @call f hf => exact ⟨_, effectLines_of_call (i := callTo f) rfl (hentries f hf)⟩

theorem effectLines_settles (h : Placed m i) : Settles [i] (effectLines m fn i) := by
  cases h with
  | expr hi =>
    have hnone : ¬i.OnStack := by
      have hall : ∀ op ∈ exprOpcodes, ¬(op = .push ∨ op = .pop) := by decide
      exact hall i.op hi.op_mem
    obtain ⟨lines, hlines⟩ := effectLines_of_expr hentries hi
    rw [hlines]
    exact .ok (List.forall_mem_singleton.mpr hnone)
  | simple hi =>
    cases hi with
    | noOp => exact .ok (by decide)
    | push s => exact .fault List.mem_cons_self (.inl rfl)
    | pop s => exact .fault List.mem_cons_self (.inr rfl)

/-- **A block has its lines** unless control comes to an instruction that works on the stack. -/
theorem bodyOf_settles (h : Flowing m code) : Settles (lived code) (bodyOf m fn flag code) := by
  induction h with
  | nil => exact settles_nil _
  | @cons i rest hi _ ih =>
    rw [bodyOf, if_neg (by simp [hi.endsText]), lived_cons_of_straight hi.endsText]
    have hlines : Settles [i] (straightLines m fn i) :=
      (effectLines_settles hentries hi).map _
    show Settles ([i] ++ lived rest) _
    exact hlines.bind fun lines => ih.map _
  | ret rest => exact settles_nil _
  | jump t rest => exact settles_nil _
  | branch slot yes no rest => exact settles_nil _

theorem sectionsOf_settles :
    ∀ (blocks : List (String × List Instr)) (flag : Nat), (∀ b ∈ blocks, Flowing m b.2) →
      Settles (blocks.flatMap fun b => lived b.2) (sectionsOf m fn flag blocks) := by
  intro blocks
  induction blocks with
  | nil => exact fun flag _ => settles_nil _
  | cons b blocks ih =>
    intro flag h
    rw [List.forall_mem_cons] at h
    obtain ⟨label, code⟩ := b
    exact (bodyOf_settles hentries h.1).bind fun body => (ih body.flags h.2).map _

theorem functionsOf_settles :
    ∀ (sources : List (String × List (String × List Instr))) (flag : Nat),
      (∀ source ∈ sources, ∀ b ∈ source.2, Flowing m b.2) →
        Settles (sources.flatMap fun source => source.2.flatMap fun b => lived b.2)
          (functionsOf m flag sources) := by
  intro sources
  induction sources with
  | nil => exact fun flag _ => settles_nil _
  | cons source sources ih =>
    intro flag h
    rw [List.forall_mem_cons] at h
    obtain ⟨name, blocks⟩ := source
    have hfunction : Settles (blocks.flatMap fun b => lived b.2)
        (functionOf m name flag blocks) := (sectionsOf_settles hentries blocks flag h.1).map _
    exact hfunction.bind fun f => (ih f.2 h.2).map _

end Texts

/-- The global sequence and the blocks of a module have a text, but for the stack. -/
structure Translatable (m : Module) : Prop where
  globals : ∀ i ∈ m.globals, Placed m i
  blocks : ∀ r, Flowing m (m.code r)

/-- The instructions that have a place in the text of a module: the global sequence, and what
stands in the blocks of functions in front of the first `RET`, `JUMP` or `TST`. -/
def liveCode (m : Module) : List Instr :=
  m.globals ++ m.functions.flatMap fun f =>
    (m.graph f.graph).blocks.flatMap fun b => lived b.instrs

section Modules

variable {m : Module}

theorem exists_liveCode {P : Instr → Prop} : (∃ i ∈ liveCode m, P i) ↔
    (∃ i ∈ m.globals, P i) ∨ ∃ f ∈ m.functions, ∃ b ∈ (m.graph f.graph).blocks,
      ∃ i ∈ lived b.instrs, P i := by
  simp only [liveCode, List.mem_append, List.mem_flatMap]
  constructor
  · rintro ⟨i, hi | ⟨f, hf, b, hb, hi⟩, hp⟩
    · exact .inl ⟨i, hi, hp⟩
    · exact .inr ⟨f, hf, b, hb, i, hi, hp⟩
  · rintro (⟨i, hi, hp⟩ | ⟨f, hf, b, hb, i, hi, hp⟩)
    · exact ⟨i, .inl hi, hp⟩
    · exact ⟨i, .inr ⟨f, hf, b, hb, hi⟩, hp⟩

theorem Translatable.flowing (h : Translatable m) {g : Nat} {b : Block}
    (hb : b ∈ (m.graph g).blocks) : Flowing m b.instrs := by
  obtain ⟨k, hk⟩ := List.mem_iff_getElem?.mp hb
  have hcode : m.code ⟨g, k⟩ = b.instrs := code_of_block? (r := ⟨g, k⟩) hk
  exact hcode ▸ h.blocks ⟨g, k⟩

theorem sourcesOf_lived (h : ∀ i ∈ m.globals, Placed m i) :
    ((sourcesOf m).flatMap fun source => source.2.flatMap fun b => lived b.2) = liveCode m := by
  have hglobals : ((if m.globals.isEmpty then []
      else [(initFunction, [("start", m.globals)])]).flatMap
      fun source : String × List (String × List Instr) => source.2.flatMap fun b => lived b.2) =
        m.globals := by
    by_cases hempty : m.globals = []
    · simp [hempty]
    · simp [hempty, lived_of_placed h]
  rw [sourcesOf, List.flatMap_append, hglobals, liveCode, List.flatMap_map]
  simp only [List.flatMap_map]

/-- **A module has a text unless control may come to an instruction that works on the stack.** -/
theorem Translatable.settles (h : Translatable m)
    (hentries : ∀ f ∈ m.functions, m.functionAt? (some ⟨f.graph, 0⟩) = some f) :
    Settles (liveCode m) (ofModule m) := by
  rw [← sourcesOf_lived h.globals]
  refine (functionsOf_settles hentries (sourcesOf m) 0 fun source hsource b hb => ?_).map _
  rw [sourcesOf, List.mem_append] at hsource
  rcases hsource with hsource | hsource
  · split at hsource
    · cases hsource
    · rw [List.mem_singleton.mp hsource] at hb
      rw [List.mem_singleton.mp hb]
      exact flowing_of_placed h.globals
  · obtain ⟨f, -, rfl⟩ := List.mem_map.mp hsource
    obtain ⟨block, hblock, rfl⟩ := List.mem_map.mp hb
    exact h.flowing hblock

end Modules

end Isel.Il

namespace Isel.Select

open Isel.Flow Isel.Syntax Isel.Scope Isel.Proofs Isel.Il

/-! ## What selection puts in -/

section Code

variable {su : Setup} {fin : State}

theorem SimpleHooks.placed (hh : SimpleHooks su) {m : Module} {request : Request}
    {out : List Instr} (ho : Answered su request out) : ∀ i ∈ out, Placed m i := by
  obtain ⟨served, ho⟩ := ho
  exact fun i hi => .simple (hh.emit i ⟨_, _, ⟨_, ho⟩, hi⟩)

theorem exprCode_placed (hh : SimpleHooks su) : ∀ n slot code, ExprCode su fin n slot code →
    ∀ i ∈ code, Placed fin.module i :=
  exprCode_each (fun _ => .expr) fun _ _ _ => hh.placed

theorem piece_flowing (hh : SimpleHooks su) {n : Node} {c : List Instr} (h : Piece su fin n c) :
    Flowing fin.module c := by
  have hexpr : ∀ {n slot c}, ExprCode su fin n slot c → Flowing fin.module c := fun hcode =>
    flowing_of_placed (exprCode_placed hh _ _ _ hcode)
  cases h with
  | noVar => exact .nil
  | var hcode _ =>
    refine (hexpr hcode).append (flowing_of_placed ?_)
    rw [localCopy]
    split
    · simp
    · exact List.forall_mem_singleton.mpr (.expr (.mov _ _))
  | leave => exact .ret []
  | ret hcode hout =>
    exact ((hexpr hcode).append (flowing_of_placed (hh.placed hout))).append (.ret [])
  | print hcode hout => exact (hexpr hcode).append (flowing_of_placed (hh.placed hout))
  | scan _ _ hout => exact flowing_of_placed (hh.placed hout)
  | expr hcode => exact hexpr hcode

theorem Laid.flowing (hh : SimpleHooks su) {g : Nat} {B : Blocks} {ns : List Node} {i j : Nat}
    {rest rest' : List Instr} (h : Laid su fin g B ns i rest j rest')
    (hend : Flowing fin.module rest') :
    Flowing fin.module rest ∧ ∀ k, i < k → k ≤ j → Flowing fin.module (B k) :=
  Laid.blocks (P := Flowing fin.module) (Q := fun _ => True) (N := j) .nil
    (fun _ _ _ => .jump _ [])
    (fun _ _ slot _ _ _ _ _ hexpr _ _ _ _ =>
      (piece_flowing hh (.expr hexpr)).append (.branch slot _ _ []))
    (fun _ _ _ _ hp hrest => (piece_flowing hh hp).append hrest)
    h (Nat.le_refl j) (fun _ _ _ _ => trivial) hend

end Code

/-! ## Declarations -/

section Steps

variable {su : Setup} {s s' : State} {u : Unit}

theorem Emitted.translatable {pt : Point} {out : List Instr} (he : Emitted pt out s s')
    (hout : ∀ i ∈ out, Placed s'.module i) (h : Translatable s.module) :
    Translatable s'.module := by
  have hsub : s.module.functions ⊆ s'.module.functions := he.functions ▸ List.Subset.refl _
  have hold : ∀ i ∈ s.module.globals, Placed s'.module i := fun i hi => (h.globals i hi).mono hsub
  constructor
  case globals =>
    by_cases hpt : pt = .globals
    · subst hpt
      rw [show s'.module.globals = s.module.globals ++ out from he.here]
      exact List.forall_mem_append.mpr ⟨hold, hout⟩
    · rw [show s'.module.globals = s.module.globals from he.elsewhere .globals (Ne.symm hpt)]
      exact hold
  case blocks =>
    intro r
    by_cases hpt : pt = .block r
    · subst hpt
      rw [show s'.module.code r = s.module.code r ++ out from he.here]
      exact ((h.blocks r).mono hsub).append (flowing_of_placed hout)
    · rw [show s'.module.code r = s.module.code r from he.elsewhere (.block r) (Ne.symm hpt)]
      exact (h.blocks r).mono hsub

theorem Wrote.translatable {g i j : Nat} (hw : Wrote g i j s s')
    (hsame : s'.module.code ⟨g, i⟩ = s.module.code ⟨g, i⟩)
    (hnew : ∀ k, i < k → k ≤ j → Flowing s'.module (s'.module.code ⟨g, k⟩))
    (h : Translatable s.module) : Translatable s'.module := by
  have hsub : s.module.functions ⊆ s'.module.functions := hw.functions ▸ List.Subset.refl _
  constructor
  case globals =>
    obtain ⟨c, hc, hglobals⟩ := hw.globals
    rw [hglobals]
    refine List.forall_mem_append.mpr ⟨fun i hi => (h.globals i hi).mono hsub, fun i hi => ?_⟩
    obtain ⟨slot, source, rfl⟩ := hc i hi
    exact .expr (.mov slot source)
  case blocks =>
    rintro ⟨q, k⟩
    by_cases hq : q = g
    · subst hq
      rcases Nat.lt_trichotomy k i with hlt | rfl | hgt
      · rw [hw.before k hlt]
        exact (h.blocks _).mono hsub
      · rw [hsame]
        exact (h.blocks _).mono hsub
      · rcases Nat.lt_or_ge j k with hjk | hkj
        · rw [Module.code_of_count_le (by rw [hw.count]; omega)]
          exact .nil
        · exact hnew k hgt hkj
    · rw [hw.others ⟨q, k⟩ hq]
      exact (h.blocks _).mono hsub

theorem Reserved.translatable {tag : Tag} {name : String} {result : ValueType} {g : Nat}
    (hr : Reserved tag name result g s s') (h : Translatable s.module) :
    Translatable s'.module := by
  have hsub : s.module.functions ⊆ s'.module.functions := by
    rw [hr.functions]
    exact List.subset_append_left _ _
  refine ⟨fun i hi => ?_, fun r => ?_⟩
  · rw [show s'.module.globals = s.module.globals from hr.code .globals] at hi
    exact (h.globals i hi).mono hsub
  · rw [show s'.module.code r = s.module.code r from hr.code (.block r)]
    exact (h.blocks r).mono hsub

/-- Lowering a function, also one that was lowered before, puts in what has a place. -/
theorem selectFunction_translatable (hh : SimpleHooks su) {tag : Tag} {name : String}
    {params : List Node} {result : ValueType} {body : Node} (hs : Underway su s)
    (h : Translatable s.module)
    (hrun : selectFunction su tag name params result body s = .ok u s') :
    Translatable s'.module := by
  rw [selectFunction, bind_eq_ok] at hrun
  obtain ⟨g, s₁, hgraph, hrun⟩ := hrun
  obtain ⟨hs₁, -, hentry⟩ := hs.functionGraph hgraph
  have h₁ : Translatable s₁.module := by
    rcases functionGraph_eq_ok hgraph with ⟨rfl, -⟩ | hres
    · exact h
    · exact hres.translatable h
  have hv : (Point.block ⟨g, 0⟩).Valid s₁.module := hentry
  obtain ⟨s₂, slots, out, hemit, -, hparams, hrun, -⟩ := params_laid hv hrun
  have h₂ : Translatable s₂.module :=
    hemit.translatable (hparams.each fun _ => hh.placed) h₁
  split at hrun
  case isFalse => cases hrun
  rw [bind_eq_ok] at hrun
  obtain ⟨⟨first, last⟩, s₃, hbody, hrun⟩ := hrun
  cases hrun
  obtain ⟨i, hcount⟩ : ∃ i, s₂.module.count g = i + 1 :=
    Nat.exists_eq_succ_of_ne_zero (by rw [hemit.count]; omega)
  obtain ⟨-, btag, stmts, s₃, rfl, hopened, hstmts⟩ := selectBody_eq_ok hcount hbody
  obtain ⟨k, -, -, hwrote, -, -, hsame, hat⟩ := body_laid
    (L := claims su (.compound btag stmts)) (fun n _ => selectStmt_laid n)
    (fun n hn l => claims_part (n := .compound btag stmts) hn) hcount
    (hemit.declared hs₁.declared) hopened hstmts
  have hlaid := laid_of_stmtsAt
    (hat s' (fun l => s'.module.code ⟨g, l⟩) [] (Grows.refl s') (fun _ _ _ => rfl) (by simp))
  obtain ⟨hfirst, hblocks⟩ := hlaid.flowing hh .nil
  exact hwrote.translatable hsame (forall_next hfirst hblocks) h₂

theorem selectDecl_translatable (hh : SimpleHooks su) {d : Node} (hs : Underway su s)
    (h : Translatable s.module) (hrun : selectDecl su d s = .ok u s') :
    Translatable s'.module := by
  cases selectDecl_eq_ok hrun with
  | @function tag name params result body hk =>
    simp only [selectDecl, Node.tag?, hk] at hrun
    exact selectFunction_translatable hh hs h hrun
  | @var tag name type init hk =>
    simp only [selectDecl, Node.tag?, hk] at hrun
    by_cases hinit : init = .absent
    · subst hinit
      cases hrun
      exact h
    · obtain ⟨source, slot, c, hemit, -, hcode⟩ :=
        selectVar_laid (t := type) hinit hrun hs.declared
      refine hemit.translatable (List.forall_mem_append.mpr ⟨?_, ?_⟩) h
      · exact exprCode_placed hh _ _ _ (hcode s' (Grows.refl s')).1
      · exact List.forall_mem_singleton.mpr (.expr (.mov slot source))

theorem reserveDecl_translatable {d : Node} (h : Translatable s.module)
    (hrun : reserveDecl d s = .ok u s') : Translatable s'.module := by
  rcases reserveDecl_cases hrun with rfl | ⟨_, _, _, _, _, _, -, hres⟩
  · exact h
  · exact (reserveFunction_eq_ok hres).translatable h

end Steps

/-! ## Programs -/

section Program

variable {su : Setup} {u : Unit} {fin : State}

/-- **Selection makes modules that have a text, but for the stack.** -/
theorem select_translatable (hh : SimpleHooks su) {root : Node}
    (hsel : select su root = .ok u fin) : Underway su fin ∧ Translatable fin.module := by
  obtain ⟨tag, decls, rfl⟩ := select_program hsel
  rw [select_of_kind su (select_isDecl hsel).1, selectDecls] at hsel
  have hreserve : ∀ d s s', (Underway su s ∧ Translatable s.module) →
      reserveDecl d s = .ok u s' → Underway su s' ∧ Translatable s'.module :=
    fun d s s' h hrun => ⟨h.1.go ((parallel_signed su).reserveDecl d) (reserveDecl_steps su hrun)
      hrun, reserveDecl_translatable h.2 hrun⟩
  have hselect : ∀ d s s', (Underway su s ∧ Translatable s.module) →
      selectDecl su d s = .ok u s' → Underway su s' ∧ Translatable s'.module :=
    fun d s s' h hrun => ⟨h.1.go ((parallel_signed su).selectDecl d)
      (selectDecl_steps h.1.rooted hrun) hrun, selectDecl_translatable hh h.1 h.2 hrun⟩
  have hinit : Underway su {} ∧ Translatable ({} : State).module :=
    ⟨⟨.refl, rfl⟩, fun i hi => (by cases hi), fun r => .nil⟩
  split at hsel
  · rw [bind_eq_ok] at hsel
    obtain ⟨_, s, hres, hsel⟩ := hsel
    exact forM_invariant (fun d _ => hselect d) (forM_invariant (fun d _ => hreserve d) hinit hres)
      hsel
  · exact forM_invariant (fun d _ => hselect d) hinit hsel

/-- **A selected module has a text unless control may come to an instruction that works on the
stack**, under any configuration.  Nothing else is ever refused. -/
theorem select_translates (hh : SimpleHooks su) {root : Node}
    (hsel : select su root = .ok u fin) (c : Settings.Config) :
    ((∃ e, (ofModule fin.module).map (Text.render (WordFormat.ofConfig c)) = .error e) ↔
      (∃ i ∈ fin.module.globals, i.OnStack) ∨
        ∃ f ∈ fin.module.functions, ∃ b ∈ (fin.module.graph f.graph).blocks,
          ∃ i ∈ lived b.instrs, i.OnStack) ∧
    ∀ e, (ofModule fin.module).map (Text.render (WordFormat.ofConfig c)) = .error e →
      ∃ fn i, i.OnStack ∧ e = .fault fn (.noLowering i) := by
  obtain ⟨hunderway, htranslatable⟩ := select_translatable hh hsel
  have hsettles : Settles (liveCode fin.module)
      ((ofModule fin.module).map (Text.render (WordFormat.ofConfig c))) := by
    have hbind : (ofModule fin.module).map (Text.render (WordFormat.ofConfig c)) =
        ofModule fin.module >>= fun text => pure (text.render (WordFormat.ofConfig c)) := by
      cases ofModule fin.module <;> rfl
    rw [hbind]
    exact (htranslatable.settles fun f hf => hunderway.functionAt? hf).map _
  refine ⟨hsettles.error_iff.trans exists_liveCode, fun e he => ?_⟩
  obtain ⟨fn, i, -, hstack, he⟩ := hsettles.error_eq he
  exact ⟨fn, i, hstack, he⟩

end Program

/-- A function that returns in front of what it prints. -/
def mutedDecls : List Node :=
  [.var (.nowhere 1 .varDecl) "v" .int (.number (.nowhere 2 .numberExpr) 7),
   .function (.nowhere 3 .functionDecl) "f" [] .void
    (.compound (.nowhere 4 .compoundStmt)
      [.ret (.nowhere 5 .returnStmt) .absent,
       .print (.nowhere 6 .printStmt) (.number (.nowhere 7 .numberExpr) 1)])]

/-- There is a text for a module that has a `PUSH` behind a `RET`. -/
theorem mutedDecls_text : ∃ t b fin text,
    select (stackSetup t b) (.program (.nowhere 0 .program) mutedDecls) = .ok () fin ∧
      (∃ i ∈ fin.module.code ⟨0, 1⟩, i.OnStack) ∧
      (ofModule fin.module).map (Text.render (WordFormat.ofConfig {})) = .ok text := by
  have hlowers : (lowered? stackSetup (.program (.nowhere 0 .program) mutedDecls)).any
      (fun s : State => decide (∃ i ∈ s.module.code ⟨0, 1⟩, i.OnStack) &&
        decide (¬∃ i ∈ liveCode s.module, i.OnStack)) = true := by decide +kernel
  obtain ⟨fin, hfin, hchecks⟩ := (Option.any_eq_true _ _).mp hlowers
  rw [Bool.and_eq_true, decide_eq_true_eq, decide_eq_true_eq, exists_liveCode] at hchecks
  obtain ⟨t, b, -, hsel⟩ := exists_of_lowered? hfin
  obtain ⟨hfails, -⟩ := select_translates (simpleHooks_stackSetup t b) hsel {}
  cases htext : (ofModule fin.module).map (Text.render (WordFormat.ofConfig {})) with
  | error e => exact absurd (hfails.mp ⟨e, htext⟩) hchecks.2
  | ok text => exact ⟨t, b, fin, text, hsel, hchecks.1, htext⟩

end Isel.Select
