import Isel.Proofs.Confinement
import Isel.Proofs.WellFormed
import Mathlib.Data.List.Pairwise

/-!
# Where first values go

The selector decides by the name of a variable alone whether the copy of its first value goes to
the global sequence.  In a program that is resolved this is never wrong:

* lowering a function leaves the global sequence and the graphs of all other functions alone, and
  lowering a variable of the program scope leaves all graphs alone;
* the global sequence is the code of the variables of the program scope, one after the other;
* every other variable has its copy in a block of its function, right behind the code of its
  initializer, and there is no other copy into its slot.
-/

namespace Isel.Syntax.Node

/-- The node is a variable that is given a first value. -/
def isInitialised : Node → Bool
  | .var _ _ _ init => !init.isAbsent
  | _ => false

end Isel.Syntax.Node

namespace Isel.Flow

def copiesTo (slot : Slot) (i : Instr) : Bool := i.op == .mov && i.args.head? == some (.slot slot)

end Isel.Flow

namespace Isel.Select

open Isel.Flow Isel.Syntax Isel.Proofs

/-- The code gives the variable its first value: it is that of the initializer, and then one copy
into the slot of the variable. -/
def InitCode (su : Setup) (fin : State) (d : Node) (code : List Instr) : Prop :=
  ∃ tag name type init source slot c, d = .var tag name type init ∧
    ExprCode su fin init source c ∧ fin.slots.slot? (some tag.label) = some slot ∧
    code = c ++ [⟨.mov, [.slot slot, .slot source]⟩]

/-! ## The global sequence -/

/-- If functions leave no copies behind, the global sequence is the code of its variables. -/
theorem globalsCode_flatten {su : Setup} {fin : State} : ∀ (ds : List Node) (code : List Instr),
    (∀ tag name params result body, .function tag name params result body ∈ ds →
      Local su body) →
    GlobalsCode su fin ds code → ∃ parts, code = parts.flatten ∧
      List.Forall₂ (InitCode su fin) (ds.filter Node.isInitialised) parts := by
  intro ds
  induction ds with
  | nil =>
    intro code _ h
    rw [GlobalsCode] at h
    exact ⟨[], h, .nil⟩
  | cons d ds ih =>
    intro code hlocal h
    have hrest := fun code => ih code fun tag name params result body hd =>
      hlocal tag name params result body (List.mem_cons_of_mem d hd)
    cases d with
    | var tag name type init =>
      by_cases hinit : init = .absent
      · subst hinit
        rw [GlobalsCode] at h
        exact hrest code h
      · obtain ⟨source, slot, c, rest, hcode, hslot, hglobals, rfl⟩ := (globalsCode_var hinit).mp h
        obtain ⟨parts, rfl, hparts⟩ := hrest rest hglobals
        have hkeep : (Node.var tag name type init).isInitialised = true := by
          cases init with
          | absent => exact absurd rfl hinit
          | _ => rfl
        refine ⟨(c ++ [⟨.mov, [.slot slot, .slot source]⟩]) :: parts, by simp, ?_⟩
        rw [List.filter_cons_of_pos hkeep]
        exact .cons ⟨tag, name, type, init, source, slot, c, rfl, hcode, hslot, rfl⟩ hparts
    | function tag name params result body =>
      rw [GlobalsCode] at h
      obtain ⟨c, rest, -, hnone, hglobals, rfl⟩ := h
      rw [hnone (hlocal tag name params result body (by simp))]
      exact hrest rest hglobals
    | _ =>
      simp only [GlobalsCode] at h
      exact hrest code h

/-! ## Copies -/

section Copies

variable {su : Setup} {fin : State} {slot : Slot}

/-- The hooks put in no copies. -/
def CopyFree (su : Setup) : Prop :=
  ∀ request out, Answered su request out → ∀ i ∈ out, i.op ≠ .mov

/-- The code copies into slots of the tree only. -/
def OwnCopies (fin : State) (n : Node) (code : List Instr) : Prop :=
  ∀ i ∈ code, ∀ slot, copiesTo slot i = true →
    ∃ l ∈ n.labels, fin.slots.slot? (some l) = some slot

theorem copiesTo_of_ne {i : Instr} (h : i.op ≠ .mov) : copiesTo slot i = false := by
  simp [copiesTo, h]

theorem ownCopies_of_ne {n : Node} {code : List Instr} (h : ∀ i ∈ code, i.op ≠ .mov) :
    OwnCopies fin n code := by
  intro i hi slot hslot
  rw [copiesTo_of_ne (h i hi)] at hslot
  cases hslot

theorem OwnCopies.append {n : Node} {c d : List Instr} (hc : OwnCopies fin n c)
    (hd : OwnCopies fin n d) : OwnCopies fin n (c ++ d) := List.forall_mem_append.mpr ⟨hc, hd⟩

theorem OwnCopies.part {n p : Node} {c : List Instr} (h : OwnCopies fin p c)
    (hp : p ∈ n.parts) : OwnCopies fin n c := by
  intro i hi slot hslot
  obtain ⟨l, hl, hown⟩ := h i hi slot hslot
  exact ⟨l, Node.labels_part_subset hp hl, hown⟩

theorem ownCopies_mov {n : Node} {tag : Tag} {source : Slot} (htag : n.tag? = some tag)
    (hslot : fin.slots.slot? (some tag.label) = some slot) :
    OwnCopies fin n [⟨.mov, [.slot slot, .slot source]⟩] := by
  intro i hi slot' hcopy
  rw [List.mem_singleton.mp hi] at hcopy
  have heq : slot = slot' := by simpa [copiesTo] using hcopy
  exact ⟨tag.label, Node.label_mem_labels htag, heq ▸ hslot⟩

theorem ownCopies_args {n : Node} : ∀ ns : List Node, (∀ m ∈ ns, m ∈ n.parts) →
    (∀ m ∈ ns, ∀ slot code, ExprCode su fin m slot code → OwnCopies fin m code) →
    ∀ slots code, ArgsCode su fin ns slots code → OwnCopies fin n code := by
  intro ns
  induction ns with
  | nil =>
    intro _ _ slots code h
    rw [ArgsCode] at h
    rw [h.2]
    exact ownCopies_of_ne (by simp)
  | cons m ns ih =>
    intro hparts hexpr slots code h
    rw [List.forall_mem_cons] at hparts hexpr
    rw [ArgsCode] at h
    obtain ⟨slot, c, ss, cs, hm, hns, -, rfl⟩ := h
    exact ((hexpr.1 slot c hm).part hparts.1).append (ih hparts.2 hexpr.2 ss cs hns)

theorem ownCopies_expr (hh : CopyFree su) : ∀ n slot code, ExprCode su fin n slot code →
    OwnCopies fin n code := by
  intro n
  induction n using Node.parts_induction with
  | _ n ih _ =>
  intro slot code h
  cases n with
  | number | boolean =>
    rw [ExprCode] at h
    rw [h.2]
    exact ownCopies_of_ne (by simp)
  | string =>
    rw [ExprCode] at h
    obtain ⟨-, k, l, -, -, rfl⟩ := h
    exact ownCopies_of_ne (by simp)
  | ident tag name =>
    rw [ExprCode] at h
    obtain ⟨hslot, decl, source, -, -, rfl⟩ := h
    exact ownCopies_mov rfl hslot
  | binary tag op left right =>
    rw [ExprCode] at h
    obtain ⟨-, lhs, rhs, c, d, opcode, hl, hr, hop, rfl⟩ := h
    have hne : ∀ op ∈ binaryOpcodes, op ≠ .mov := by decide
    have hleft : left ∈ (Node.binary tag op left right).parts := by simp [Node.parts]
    have hright : right ∈ (Node.binary tag op left right).parts := by simp [Node.parts]
    refine (((ih left hleft lhs c hl).part hleft).append
      ((ih right hright rhs d hr).part hright)).append ?_
    exact ownCopies_of_ne (List.forall_mem_singleton.mpr (hne opcode (mem_binaryOpcodes hop)))
  | call tag callee args =>
    rw [ExprCode] at h
    obtain ⟨-, slots, c, out, f, result, hargs, hout, -, hresult, rfl⟩ := h
    have hc := ownCopies_args (n := .call tag callee args) args (fun _ hm => hm) ih slots c hargs
    refine (hc.append (ownCopies_of_ne (hout.each fun out => hh _ out))).append ?_
    refine ownCopies_of_ne (List.forall_mem_cons.mpr ⟨by simp [callTo], ?_⟩)
    exact hresult.each fun out => hh _ out
  | _ => simp [ExprCode] at h

theorem ownCopies_piece (hh : CopyFree su) {n : Node} {c : List Instr} (h : Piece su fin n c) :
    OwnCopies fin n c := by
  have hexpr : ∀ n slot code, ExprCode su fin n slot code → OwnCopies fin n code :=
    ownCopies_expr hh
  cases h with
  | noVar | leave => exact ownCopies_of_ne (by simp)
  | @var tag name type init source slot c hcode hslot =>
    refine ((hexpr _ _ _ hcode).part (by simp [Node.parts])).append ?_
    rw [localCopy]
    split
    · exact ownCopies_of_ne (by simp)
    · exact ownCopies_mov rfl hslot
  | ret hcode hout =>
    refine (((hexpr _ _ _ hcode).part (by simp [Node.parts])).append
      (ownCopies_of_ne (hh _ _ hout))).append ?_
    exact ownCopies_of_ne (by simp)
  | print hcode hout =>
    exact ((hexpr _ _ _ hcode).part (by simp [Node.parts])).append (ownCopies_of_ne (hh _ _ hout))
  | scan _ _ hout => exact ownCopies_of_ne (hh _ _ hout)
  | expr hcode => exact hexpr _ _ _ hcode

theorem OwnCopies.countP_eq_zero {n : Node} {c : List Instr} {l : Label} (h : OwnCopies fin n c)
    (hl : l ∉ n.labels) (hslot : fin.slots.slot? (some l) = some slot) :
    c.countP (copiesTo slot) = 0 := by
  rw [List.countP_eq_zero]
  intro i hi hcopy
  obtain ⟨l', hl', hslot'⟩ := h i hi slot hcopy
  exact hl (slot?_inj hslot hslot' ▸ hl')

theorem InitCode.ownCopies (hh : CopyFree su) {d : Node} {c : List Instr}
    (h : InitCode su fin d c) : OwnCopies fin d c := by
  obtain ⟨tag, name, type, init, source, slot, c, rfl, hcode, hslot, rfl⟩ := h
  exact ((ownCopies_expr hh init source c hcode).part (by simp [Node.parts])).append
    (ownCopies_mov rfl hslot)

theorem InitCode.countP_eq_one (hh : CopyFree su) {d : Node} {c : List Instr}
    (h : InitCode su fin d c) (hu : d.labels.Nodup) (hslot : fin.slots.slot? d.label? = some slot) :
    c.countP (copiesTo slot) = 1 := by
  obtain ⟨tag, name, type, init, source, own, c, rfl, hcode, hown, rfl⟩ := h
  obtain rfl : own = slot := Option.some.inj (hown.symm.trans hslot)
  have hl : tag.label ∉ init.labels := by
    rw [Node.labels_eq] at hu
    simp only [Node.label?, Node.tag?, Node.parts, List.flatMap_singleton] at hu
    exact (List.nodup_cons.mp hu).1
  rw [List.countP_append, (ownCopies_expr hh init source c hcode).countP_eq_zero hl hown]
  simp [copiesTo]

variable {l : Label} {ns : List Node} {cs : List (List Instr)}

theorem countP_flatten_eq_zero (h : List.Forall₂ (OwnCopies fin) ns cs)
    (hl : ∀ n ∈ ns, l ∉ n.labels) (hslot : fin.slots.slot? (some l) = some slot) :
    cs.flatten.countP (copiesTo slot) = 0 := by
  induction h with
  | nil => rfl
  | cons hc _ ih =>
    rw [List.forall_mem_cons] at hl
    rw [List.flatten_cons, List.countP_append, hc.countP_eq_zero hl.1 hslot, ih hl.2]

theorem countP_flatten_eq_one {v : Node} (h : List.Forall₂ (fun n c => OwnCopies fin n c ∧
      (n = v → c.countP (copiesTo slot) = 1)) ns cs) (hu : (ns.flatMap Node.labels).Nodup)
    (hv : v ∈ ns) (hl : l ∈ v.labels) (hslot : fin.slots.slot? (some l) = some slot) :
    cs.flatten.countP (copiesTo slot) = 1 := by
  induction h with
  | nil => cases hv
  | @cons n c ns cs hc hcs ih =>
    rw [List.flatMap_cons, List.nodup_append] at hu
    obtain ⟨-, hrest, hapart⟩ := hu
    rw [List.flatten_cons, List.countP_append]
    rcases List.mem_cons.mp hv with rfl | hv
    · rw [hc.2 rfl, countP_flatten_eq_zero (hcs.imp fun _ _ h => h.1) ?_ hslot]
      intro m hm hlm
      exact hapart l hl l (List.mem_flatMap.mpr ⟨m, hm, hlm⟩) rfl
    · rw [hc.1.countP_eq_zero ?_ hslot, ih hrest hv]
      intro hln
      exact hapart l hln l (List.mem_flatMap.mpr ⟨v, hv, hl⟩) rfl

end Copies

/-! ## Variables of functions -/

section Locals

variable {su : Setup} {fin : State} {g : Nat} {B : Blocks} {ns : List Node} {i j : Nat}
  {rest rest' : List Instr} {tag : Tag} {name : String} {type : ValueType} {init : Node}

theorem var_notMem_expr {n : Node} {slot : Slot} {c : List Instr}
    (h : ExprCode su fin n slot c) : .var tag name type init ∉ n.nodes := by
  intro hm
  cases isExpr_of_mem_nodes n (isExpr_of_exprCode n slot c h) _ hm

theorem eq_of_var_mem_piece {n : Node} {c : List Instr} (h : Piece su fin n c)
    (hm : .var tag name type init ∈ n.nodes) : .var tag name type init = n := by
  rcases mem_nodes_cases hm with he | ⟨p, hp, hin⟩
  · exact he
  · cases h with
    | noVar | leave | scan =>
      rw [List.mem_singleton.mp hp] at hin
      simp [Node.nodes, Node.walk] at hin
    | var hcode | ret hcode | print hcode =>
      rw [List.mem_singleton.mp hp] at hin
      exact absurd hin (var_notMem_expr hcode)
    | expr hcode => exact absurd hm (var_notMem_expr hcode)

theorem exists_piece {m : Node} (hm : hasBody m = false) :
    ∀ n : Node, m ∈ n.nodes → ∃ p ∈ n.pieces, m ∈ p.nodes := by
  intro n
  induction n using Node.parts_induction with
  | _ n ih _ =>
  intro hmem
  by_cases hn : hasBody n = false
  · rw [pieces_of_hasBody hn]
    exact ⟨n, List.mem_singleton_self n, hmem⟩
  · rcases mem_nodes_cases hmem with rfl | ⟨p, hp, hpart⟩
    · exact absurd hm hn
    · obtain ⟨q, hq, hin⟩ := ih p hp hpart
      cases n with
      | compound tag stmts =>
        refine ⟨q, ?_, hin⟩
        rw [Node.pieces, piecesAll_eq]
        exact List.mem_flatMap.mpr ⟨p, hp, hq⟩
      | ifThen tag cond body | loop tag cond body =>
        simp only [Node.parts, List.mem_cons, List.not_mem_nil, or_false] at hp
        rw [Node.pieces]
        rcases hp with rfl | rfl
        · exact ⟨p, List.mem_cons_self, hpart⟩
        · exact ⟨q, List.mem_cons_of_mem _ hq, hin⟩
      | _ => exact absurd rfl hn

/-- The labels of the pieces are among those of the statement, in order. -/
theorem pieces_sublist : ∀ n : Node, (n.pieces.flatMap Node.labels).Sublist n.labels := by
  have hall : ∀ ns : List Node,
      (∀ n ∈ ns, (n.pieces.flatMap Node.labels).Sublist n.labels) →
        ((Node.piecesAll ns).flatMap Node.labels).Sublist (ns.flatMap Node.labels) := by
    intro ns
    induction ns with
    | nil => exact fun _ => .slnil
    | cons n ns ih =>
      intro h
      rw [List.forall_mem_cons] at h
      rw [Node.piecesAll, List.flatMap_append, List.flatMap_cons]
      exact h.1.append (ih h.2)
  intro n
  induction n using Node.parts_induction with
  | _ n ih _ =>
  cases n with
  | compound tag stmts => exact (hall stmts ih).trans (Node.parts_sublist (.compound tag stmts))
  | ifThen tag cond body | loop tag cond body =>
    have hbody := ih body (by simp [Node.parts])
    refine ((List.Sublist.refl cond.labels).append hbody).trans ?_
    refine List.Sublist.trans ?_ (Node.parts_sublist _)
    simp [Node.parts]
  | _ =>
    rw [pieces_of_hasBody rfl, List.flatMap_singleton]

/-- The variables among the pieces are not taken for some of the program scope. -/
theorem Laid.local_pieces (h : Laid su fin g B ns i rest j rest') (hlocal : LocalAll su ns)
    (hv : .var tag name type init ∈ Node.piecesAll ns) : su.isGlobal name = false := by
  have hcond : ∀ {slot c cond}, ExprCode su fin cond slot c → .var tag name type init ≠ cond := by
    rintro slot c _ hcode rfl
    simp [ExprCode] at hcode
  induction h with
  | nil => cases hv
  | piece hp _ ih =>
    rw [LocalAll] at hlocal
    rw [Node.piecesAll, pieces_of_hasBody hp.hasBody, List.singleton_append, List.mem_cons] at hv
    rcases hv with rfl | hv
    · rw [Local] at hlocal
      exact hlocal.1
    · exact ih hlocal.2 hv
  | compound _ _ ih₁ ih₂ =>
    rw [LocalAll, Local] at hlocal
    rw [Node.piecesAll, Node.pieces, List.mem_append] at hv
    exact hv.elim (ih₁ hlocal.1) (ih₂ hlocal.2)
  | ifThen htest _ _ ih₁ ih₂ =>
    rw [LocalAll, Local, Local] at hlocal
    rw [Node.piecesAll, Node.pieces, Node.pieces, List.cons_append, List.mem_cons,
      List.mem_append] at hv
    exact hv.elim (fun he => absurd he (hcond htest)) fun hv =>
      hv.elim (ih₁ hlocal.1) (ih₂ hlocal.2)
  | loop htest _ _ _ ih₁ ih₂ =>
    rw [LocalAll, Local, Local] at hlocal
    rw [Node.piecesAll, Node.pieces, Node.pieces, List.cons_append, List.mem_cons,
      List.mem_append] at hv
    exact hv.elim (fun he => absurd he (hcond htest)) fun hv =>
      hv.elim (ih₁ hlocal.1) (ih₂ hlocal.2)

/-- The piece of a variable that is not taken for one of the program scope. -/
theorem initCode_of_piece {c : List Instr} (h : Piece su fin (.var tag name type init) c)
    (hinit : init.isAbsent = false) (hlocal : su.isGlobal name = false) :
    InitCode su fin (.var tag name type init) c := by
  cases h with
  | noVar => cases hinit
  | @var _ _ _ _ source slot c hcode hslot =>
    exact ⟨tag, name, type, init, source, slot, c, rfl, hcode, hslot, by simp [localCopy, hlocal]⟩
  | expr hcode => simp [ExprCode] at hcode

end Locals

section Functions

variable {su : Setup} {fin : State} {g : Nat} {params : List Node} {body : Node} {slot : Slot}
  {l : Label}

/-- The pieces of a function stand in its blocks, and but for the first block all copies stand
in them. -/
theorem FunctionCode.pieces
    (h : FunctionCode su fin g (fun k => fin.module.code ⟨g, k⟩) (fin.module.count g) params
      body) : ∃ slots cs, ParamsIn su slots (fin.module.code ⟨g, 0⟩) ∧
      (Local su body → ∀ tag name type init, .var tag name type init ∈ body.pieces →
        su.isGlobal name = false) ∧
      List.Forall₂ (fun n c => Piece su fin n c ∧ ∃ k, c <:+: fin.module.code ⟨g, k⟩)
        body.pieces cs ∧
      ∀ slot, (fin.module.graph g).instrs.countP (copiesTo slot) =
        (fin.module.code ⟨g, 0⟩).countP (copiesTo slot) +
          cs.flatten.countP (copiesTo slot) := by
  obtain ⟨tag, stmts, slots, j, rfl, -, hparams, hstmts, hcount⟩ := h
  have hlaid := laid_of_stmtsAt hstmts
  obtain ⟨cs, hcs, hcode⟩ := hlaid.pieces
  refine ⟨slots, cs, hparams, ?_, hcs.imp ?_, fun slot => ?_⟩
  · intro hlocal tag name type init hv
    rw [Local] at hlocal
    exact hlaid.local_pieces hlocal hv
  · rintro n c ⟨hp, hin | ⟨k, -, -, hin⟩⟩
    · exact ⟨hp, 1, hin⟩
    · exact ⟨hp, k, hin⟩
  · have hfilter := hcode (copiesTo slot) (fun t => copiesTo_of_ne (by simp [jumpTo]))
      fun _ => copiesTo_of_ne (by simp)
    rw [instrs_graph hcount, between_next _ hlaid.le, List.countP_append]
    simp only [List.countP_eq_length_filter, hfilter, List.filter_nil, List.append_nil]

theorem ParamsIn.countP_eq_zero (hh : CopyFree su) {slots : List Slot} {code : List Instr}
    (h : ParamsIn su slots code) : code.countP (copiesTo slot) = 0 := by
  rw [List.countP_eq_zero]
  intro i hi
  rw [copiesTo_of_ne (h.each (fun out hout => hh _ out hout) i hi)]
  exact Bool.false_ne_true

theorem FunctionCode.countP_eq_zero (hh : CopyFree su)
    (h : FunctionCode su fin g (fun k => fin.module.code ⟨g, k⟩) (fin.module.count g) params body)
    (hl : l ∉ body.labels) (hslot : fin.slots.slot? (some l) = some slot) :
    (fin.module.graph g).instrs.countP (copiesTo slot) = 0 := by
  obtain ⟨slots, cs, hparams, -, hcs, hcount⟩ := h.pieces
  rw [hcount, hparams.countP_eq_zero hh, Nat.zero_add]
  refine countP_flatten_eq_zero (hcs.imp fun _ _ h => ownCopies_piece hh h.1) ?_ hslot
  intro n hn hln
  exact hl ((pieces_sublist body).subset (List.mem_flatMap.mpr ⟨n, hn, hln⟩))

theorem exists_of_forall₂ {R : Node → List Instr → Prop} {ns : List Node}
    {cs : List (List Instr)} (h : List.Forall₂ R ns cs) : ∀ n ∈ ns, ∃ c, R n c := by
  induction h with
  | nil => simp
  | cons hc _ ih => exact List.forall_mem_cons.mpr ⟨⟨_, hc⟩, ih⟩

/-- **A variable of a function is given its first value in a block of that function**, and its
slot is copied into only once there. -/
theorem FunctionCode.initCode {v : Node}
    (h : FunctionCode su fin g (fun k => fin.module.code ⟨g, k⟩) (fin.module.count g) params body)
    (hlocal : Local su body) (hu : body.labels.Nodup) (hv : v ∈ body.nodes)
    (hinit : v.isInitialised = true) :
    (∃ k c, c <:+: fin.module.code ⟨g, k⟩ ∧ InitCode su fin v c) ∧
      (CopyFree su → ∀ slot, fin.slots.slot? v.label? = some slot →
        (fin.module.graph g).instrs.countP (copiesTo slot) = 1) := by
  obtain ⟨slots, cs, hparams, hglobal, hcs, hcount⟩ := h.pieces
  cases v with
  | var tag name type init =>
    have habsent : init.isAbsent = false := by simpa [Node.isInitialised] using hinit
    obtain ⟨p, hp, hin⟩ := exists_piece rfl body hv
    obtain ⟨c, hpiece, k, hk⟩ := exists_of_forall₂ hcs p hp
    obtain rfl := eq_of_var_mem_piece hpiece hin
    have hown := hglobal hlocal tag name type init hp
    refine ⟨⟨k, c, hk, initCode_of_piece hpiece habsent hown⟩, fun hh slot hslot => ?_⟩
    have hlabels : (body.pieces.flatMap Node.labels).Nodup := hu.sublist (pieces_sublist body)
    rw [hcount, hparams.countP_eq_zero hh, Nat.zero_add]
    refine countP_flatten_eq_one (hcs.imp ?_) hlabels hp (Node.label_mem_labels rfl) hslot
    rintro n c ⟨hpiece, -⟩
    refine ⟨ownCopies_piece hh hpiece, ?_⟩
    rintro rfl
    exact (initCode_of_piece hpiece habsent hown).countP_eq_one hh
      ((List.nodup_flatMap.mp hlabels).1 _ hp) hslot
  | _ => cases hinit

end Functions

/-! ## Whole programs -/

section Program

variable {su : Setup} {fin : State} {tag : Tag} {decls : List Node}

theorem labels_disjoint (hu : (Node.program tag decls).Unshared) {d d' : Node} (hd : d ∈ decls)
    (hd' : d' ∈ decls) (hne : d ≠ d') : d.labels.Disjoint d'.labels := by
  have hpairs := (List.nodup_flatMap.mp (Node.nodup_parts hu)).2
  have : Std.Symm (Function.onFun List.Disjoint Node.labels) := ⟨fun _ _ h _ ha hb => h hb ha⟩
  exact hpairs.forall hd hd' hne

theorem nodup_body (hu : (Node.program tag decls).Unshared) {ftag : Tag} {name : String}
    {params : List Node} {result : ValueType} {body : Node}
    (hd : .function ftag name params result body ∈ decls) : body.labels.Nodup :=
  Node.nodup_part (Node.nodup_part hu hd) (by simp [Node.parts])

theorem labels_body_subset (tag : Tag) (name : String) (params : List Node) (result : ValueType)
    (body : Node) : body.labels ⊆ (Node.function tag name params result body).labels :=
  Node.labels_part_subset (by simp [Node.parts])

/-- **The slot of a variable of a function is copied into in that function only**, and once. -/
theorem Lowered.copies (h : Lowered su decls decls fin) (hh : CopyFree su)
    (hu : (Node.program tag decls).Unshared)
    (hlocal : ∀ tag name params result body, .function tag name params result body ∈ decls →
      Local su body)
    {ftag : Tag} {name : String} {params : List Node} {result : ValueType} {body v : Node}
    (hd : .function ftag name params result body ∈ decls) (hv : v ∈ body.nodes)
    (hinit : v.isInitialised = true) {slot : Slot} (hslot : fin.slots.slot? v.label? = some slot) :
    fin.module.globals.countP (copiesTo slot) = 0 ∧
      ∀ f ∈ fin.module.functions, (fin.module.graph f.graph).instrs.countP (copiesTo slot) =
        if f.name = name then 1 else 0 := by
  obtain ⟨l, hl⟩ : ∃ l, v.label? = some l := by
    cases v with
    | var vtag => exact ⟨vtag.label, rfl⟩
    | _ => cases hinit
  rw [hl] at hslot
  have hlbody : l ∈ body.labels := Node.mem_labels.mpr ⟨v, hv, hl⟩
  have hother : ∀ d ∈ decls, d ≠ .function ftag name params result body → l ∉ d.labels :=
    fun d hmem hne hld => labels_disjoint hu hmem hd hne hld
      (labels_body_subset ftag name params result body hlbody)
  refine ⟨?_, fun f hf => ?_⟩
  · obtain ⟨parts, hglobals, hparts⟩ :=
      globalsCode_flatten decls _ hlocal (h.globals fin (.refl fin))
    rw [hglobals]
    refine countP_flatten_eq_zero (hparts.imp fun _ _ h => h.ownCopies hh) ?_ hslot
    intro d hmem
    obtain ⟨hmem, hinit⟩ := List.mem_filter.mp hmem
    refine hother d hmem ?_
    rintro rfl
    cases hinit
  · split
    · rename_i hname
      obtain ⟨g, hmem, hcode⟩ := h.functions ftag name params result body hd
      obtain rfl : f = ⟨name, g⟩ := List.inj_on_of_nodup_map h.names hf hmem hname
      obtain ⟨-, hone⟩ := (hcode fin (.refl fin)).initCode (hlocal _ _ _ _ _ hd)
        (nodup_body hu hd) hv hinit
      exact hone hh slot (hl ▸ hslot)
    · rename_i hne
      obtain ⟨ftag', name', params', result', body', hd', hmem, hcode, -⟩ :=
        h.graph (h.there f hf)
      have hname : f.name = name' :=
        congrArg Function.name (List.inj_on_of_nodup_map h.graphs hf hmem rfl)
      refine hcode.countP_eq_zero hh (fun hl' => hother _ hd' ?_
        (labels_body_subset ftag' name' params' result' body' hl')) hslot
      rintro ⟨⟩
      exact hne hname

/-- **Routing by name.**  In a program that is resolved the code of the program scope and that of
functions are never mixed up.  Lowering a function leaves the global sequence and the blocks of
all other functions as they are, and lowering a variable of the program scope leaves all blocks
as they are, whether the lowering ends well or not.  So the global sequence is the code of the
variables of the program scope that are given a first value, in order, and every such variable of
a function has its copy in a block of this function, right behind the code of its initializer;
where the hooks put in no copies it is the only one into the slot. -/
theorem select_routed {t : Scope.Table} {b₀ b : Scope.Bindings}
    (hu : (Node.program tag decls).Unshared)
    (hres : Scope.resolveProgram (.program tag decls) b₀ = .ok t b)
    (hg : su.isGlobal = t.isGlobal) :
    (∀ done rest ftag name params result body s,
      decls = done ++ .function ftag name params result body :: rest →
      selectDone su decls done {} = .ok () s →
        (stateOf (selectDecl su (.function ftag name params result body) s)).module.globals =
            s.module.globals ∧
          ∀ f ∈ s.module.functions, f.name ≠ name →
            ((stateOf (selectDecl su (.function ftag name params result body) s)).module.graph
                f.graph).blocks = (s.module.graph f.graph).blocks) ∧
      (∀ done rest vtag name type init s,
        decls = done ++ .var vtag name type init :: rest →
        selectDone su decls done {} = .ok () s → ∀ g,
          ((stateOf (selectDecl su (.var vtag name type init) s)).module.graph g).blocks =
            (s.module.graph g).blocks) ∧
      ∀ fin, select su (.program tag decls) = .ok () fin →
        (∃ parts, fin.module.globals = parts.flatten ∧
          List.Forall₂ (InitCode su fin) (decls.filter Node.isInitialised) parts) ∧
        ∀ ftag name params result body, .function ftag name params result body ∈ decls →
          ∃ g, ⟨name, g⟩ ∈ fin.module.functions ∧
            ∀ v ∈ body.nodes, v.isInitialised = true →
              (∃ k code, code <:+: fin.module.code ⟨g, k⟩ ∧ InitCode su fin v code) ∧
              (CopyFree su → ∃ slot, fin.slots.slot? v.label? = some slot ∧
                fin.module.globals.countP (copiesTo slot) = 0 ∧
                ∀ f ∈ fin.module.functions,
                  (fin.module.graph f.graph).instrs.countP (copiesTo slot) =
                    if f.name = name then 1 else 0) := by
  have hlocal : ∀ ftag name params result body,
      .function ftag name params result body ∈ decls → Local su body :=
    fun _ _ _ _ _ hd => local_of_resolved hres hg hd
  refine ⟨?_, ?_, ?_⟩
  · rintro done rest ftag name params result body s rfl hdone
    exact selectDecl_function (hlocal ftag name params result body (by simp))
      (selectDone_steps hdone).owned
  · intro done rest vtag name type init s _ _ g
    exact selectDecl_var g
  · intro fin hsel
    have hlow := select_laid hu hsel
    refine ⟨globalsCode_flatten decls _ hlocal (hlow.globals fin (.refl fin)), ?_⟩
    intro ftag name params result body hd
    obtain ⟨g, hmem, hcode⟩ := hlow.functions ftag name params result body hd
    refine ⟨g, hmem, fun v hv hinit => ?_⟩
    obtain ⟨hplace, -⟩ := (hcode fin (.refl fin)).initCode (hlocal _ _ _ _ _ hd)
      (nodup_body hu hd) hv hinit
    refine ⟨hplace, fun hh => ?_⟩
    obtain ⟨k, code, -, vtag, vname, type, init, source, slot, c, rfl, -, hslot, -⟩ := hplace
    exact ⟨slot, hslot, hlow.copies hh hu hlocal hd hv hinit hslot⟩

theorem copyFree_stackSetup (t : Scope.Table) (b : Scope.Bindings) : CopyFree (stackSetup t b) := by
  intro request out hout i hi heq
  cases simple_of_stack rfl hout i hi <;> cases heq

/-- A variable of the program scope, and a function with two more in two scopes. -/
def copyingDecls : List Node :=
  [.var (.nowhere 1 .varDecl) "x" .int (.number (.nowhere 2 .numberExpr) 1),
   .function (.nowhere 3 .functionDecl) "f" [] .void
    (.compound (.nowhere 4 .compoundStmt)
      [.var (.nowhere 5 .varDecl) "y" .int (.ident (.nowhere 6 .identExpr) "x"),
       .compound (.nowhere 7 .compoundStmt)
        [.var (.nowhere 8 .varDecl) "z" .int (.ident (.nowhere 9 .identExpr) "y")]])]

theorem copyingDecls_routed : ∃ t b fin g slot,
    select (stackSetup t b) (.program (.nowhere 0 .program) copyingDecls) = .ok () fin ∧
      InitCode (stackSetup t b) fin
        (.var (.nowhere 1 .varDecl) "x" .int (.number (.nowhere 2 .numberExpr) 1))
        fin.module.globals ∧
      ⟨"f", g⟩ ∈ fin.module.functions ∧ fin.slots.slot? (some 8) = some slot ∧
      fin.module.globals.countP (copiesTo slot) = 0 ∧
      (fin.module.graph g).instrs.countP (copiesTo slot) = 1 := by
  have hlowers : lowers stackSetup (.program (.nowhere 0 .program) copyingDecls) = true := by
    decide +kernel
  obtain ⟨t, b, fin, hres, hsel⟩ := exists_of_lowers hlowers
  have hu : (Node.program (.nowhere 0 .program) copyingDecls).Unshared := by decide
  have hglobal : (stackSetup t b).isGlobal = t.isGlobal := rfl
  obtain ⟨⟨parts, hglobals, hparts⟩, hfun⟩ := (select_routed hu hres hglobal).2.2 fin hsel
  obtain ⟨g, hmem, hvars⟩ := hfun _ "f" [] .void _ (List.mem_cons_of_mem _ List.mem_cons_self)
  obtain ⟨-, hcopies⟩ := hvars
    (.var (.nowhere 8 .varDecl) "z" .int (.ident (.nowhere 9 .identExpr) "y"))
    (by simp [Node.nodes, Node.walk, Node.walkAll]) rfl
  obtain ⟨slot, hslot, hnone, hone⟩ := hcopies (copyFree_stackSetup t b)
  refine ⟨t, b, fin, g, slot, hsel, ?_, hmem, hslot, hnone, ?_⟩
  · cases hparts with
    | cons hx hrest =>
      cases hrest
      rw [hglobals]
      simpa using hx
  · exact hone _ hmem

end Program

end Isel.Select
