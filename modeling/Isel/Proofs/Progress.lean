import Isel.Proofs.Readiness

/-!
# Selection goes on

On a program of the grammar that resolution accepted, selection can be stopped by one
thing only: the value of a variable without initializer is asked for before input was read
into it.  None of the other failures is reachable, because resolution has seen to it that
names are declared, that functions have different names and that no local variable takes the
name of a variable of the program scope.

Each construct is shown to go on (`expr_goes`, `stmt_goes`, `decls_go`), by one case for each
rule of the grammar, and `select_progress` is what comes of it for whole programs.
-/

namespace Isel.Select

open Isel.Flow Isel.Syntax Isel.Proofs Isel.Scope
open Isel.Syntax.Node (Use uses usesAll)

/-! ## Expressions -/

section Expr

variable {su : Setup} {U : Label → Prop} {env : Env} {n : Node} {tag : Tag} {s : State}

theorem allocate_goes (hU : ¬U tag.label) (h : ¬Held s tag.label) :
    Goes su U [] [tag.label] s (allocate tag s) := by
  refine .of_ok (allocate_of_none (slot?_eq_none h)) ready_nil ⟨rfl, rfl, ?_, ?_, ?_⟩
  · exact fun l hl => held_withOwner.mpr (.inl hl)
  · exact fun l hl => absurd hl not_scanned_nil
  · intro l hl
    rcases held_withOwner.mp hl with hl | rfl
    · exact .inl hl
    · exact .inr (.inr ⟨hU, by simp⟩)

theorem claimSlot_goes (hn : n.IsExpr) (htag : n.tag? = some tag)
    (h : Stands su U env [n] s) : Goes su U [] n.label?.toList s (claimSlot tag s) := by
  have hU : ¬U tag.label := by
    rw [h.marked htag]
    rintro ⟨name, type, rfl⟩
    cases hn
  rw [claimSlot, if_pos (h.kind_isExpr hn htag), Node.label?, htag]
  exact allocate_goes hU (h.not_held htag hU)

/-- The slot of a variable is found unless the variable is of `U` and has none. -/
theorem lookup_goes {decl : Decl} (name : String) (pos : Source.Position)
    (hfind : su.bindings.find? tag.label = some decl) (h : U decl.label ∨ Held s decl.label) :
    Goes su U [.value tag name] [] s (lookup pos decl s) := by
  have hready : Ready su U s [.value tag name] ↔ (U decl.label → Held s decl.label) := by
    constructor
    · intro hr hU
      exact (hr [] tag name decl [] rfl hfind hU).resolve_right not_scanned_nil
    · intro hr pre t nm d post he hd hU
      cases pre with
      | nil =>
        cases he
        rw [hfind] at hd
        cases hd
        exact .inl (hr hU)
      | cons u pre => simp at he
  by_cases hheld : Held s decl.label
  · obtain ⟨slot, hslot⟩ := exists_slot_of_held hheld
    refine .of_ok (lookup_eq_ok.mpr ⟨hslot, rfl⟩) (hready.mpr fun _ => hheld) ?_
    refine ⟨rfl, rfl, fun l hl => hl, ?_, fun l hl => .inl hl⟩
    rintro l ⟨_, _, _, hmem, -⟩
    simp at hmem
  · have hrun : lookup pos decl s =
        .error (.fault ⟨pos, .slot (.unlowered decl.kind decl.name)⟩) s := by
      simp [lookup, Slots.lookup, slot?_eq_none hheld, failSlot, fail]
    rw [hrun]
    exact ⟨fun hr => hheld (hready.mp hr (h.resolve_right hheld)), _, _, _, rfl⟩

theorem calleeEntry_goes {callee : String} (h : (s.module.function? callee).isSome = true) :
    Goes su U [] [] s (calleeEntry tag callee s) := by
  obtain ⟨f, hf⟩ := Option.isSome_iff_exists.mp h
  exact .of_ok (calleeEntry_eq_ok.mpr ⟨rfl, f, hf, rfl⟩) ready_nil (.refl s)

/-- Selection of the node goes on wherever the node stands. -/
def ExprGoes (su : Setup) (U : Label → Prop) (n : Node) : Prop :=
  ∀ pt env s, Stands su U env [n] s → Goes su U (uses n) n.labels s (selectExpr su pt n s)

theorem args_go (pt : Point) : ∀ (args : List Node), (∀ a ∈ args, a.IsExpr) →
    (∀ a ∈ args, ExprGoes su U a) → ∀ env s, Stands su U env args s →
      Goes su U (usesAll args) (args.flatMap Node.labels) s (selectArgs su pt args s) := by
  intro args
  induction args with
  | nil =>
    intro _ _ env s _
    rw [selectArgs, usesAll]
    exact (quiet_pure []).goes
  | cons a args ih =>
    intro hexpr h env s hs
    rw [selectArgs, usesAll, List.flatMap_cons]
    refine (h a (by simp) pt env s hs.head).bind fun slot s₁ _ hk => ?_
    have hnone : ∀ x ∈ declared a, Offers U s₁ x := by simp [declared_of_isExpr (hexpr a (by simp))]
    have hrest := ih (fun b hb => hexpr b (by simp [hb])) (fun b hb => h b (by simp [hb])) _ s₁
      (hs.tail hk hnone)
    exact hrest.bind_quiet fun slots => quiet_pure _

/-- **Expressions go on.** -/
theorem expr_goes (hans : Answers su) (hn : n.IsExpr) : ExprGoes su U n := by
  induction hn with
  | number =>
    intro pt env s h
    have hclaim := claimSlot_goes .number rfl h
    have hload : ∀ slot value, Quiet (do
        emit pt .loadImm [.slot slot, .imm value]
        return slot : Selection Slot) := fun _ _ => (quiet_emit ..).bind fun _ => quiet_pure _
    rw [selectExpr, uses, Node.labels_eq]
    refine hclaim.bind fun slot s₁ _ _ => Quiet.goes ?_
    exact .ite ((quiet_remark ..).bind fun _ => hload _ _) (hload _ _)
  | boolean =>
    intro pt env s h
    have hclaim := claimSlot_goes .boolean rfl h
    rw [selectExpr, uses, Node.labels_eq]
    exact hclaim.bind fun slot s₁ _ _ =>
      ((quiet_emit ..).bind fun _ => quiet_pure _).goes
  | string =>
    intro pt env s h
    have hclaim := claimSlot_goes .string rfl h
    rw [selectExpr, uses, Node.labels_eq]
    exact hclaim.bind fun slot s₁ _ _ =>
      ((quiet_literalFor _).bind fun _ => (quiet_emit ..).bind fun _ => quiet_pure _).goes
  | @ident tag name =>
    intro pt env s h
    obtain ⟨symbol, hfind, hrole, hbound⟩ :=
      h.seen_one ⟨.ident tag name, env⟩ (by simp [sites])
    have hclaim := claimSlot_goes .ident rfl h
    rw [selectExpr, uses, Node.labels_eq]
    refine hclaim.bind fun slot s₁ _ hk => ?_
    have hoffer := ((h.find? hfind).1.kept hk).2 hrole
    simp only [hbound]
    exact (lookup_goes name tag.pos hbound hoffer).bind_quiet fun _ =>
      (quiet_emit ..).bind fun _ => quiet_pure _
  | @binary tag op left right hop hl hr ihl ihr =>
    intro pt env s h
    have hclaim := claimSlot_goes (.binary hop hl hr) rfl h
    rw [selectExpr, uses, Node.labels_eq]
    refine hclaim.bind fun slot s₁ _ hk => ?_
    have hparts : Stands su U env [left, right] s₁ := h.parts rfl hk
    simp only [Node.parts, List.flatMap_cons, List.flatMap_nil, List.append_nil]
    refine (ihl pt env s₁ hparts.head).bind fun lhs s₂ _ hk₂ => ?_
    have hright := hparts.tail hk₂ (by simp [declared_of_isExpr hl])
    refine (ihr pt _ s₂ hright).bind_quiet fun rhs => ?_
    exact (quiet_operatorOpcode hop _).bind fun _ => (quiet_emit ..).bind fun _ => quiet_pure _
  | @call tag callee args hargs ih =>
    intro pt env s h
    obtain ⟨symbol, hfind, hrole⟩ :=
      h.seen_one ⟨.call tag callee args, env⟩ (by rw [sites]; simp)
    have hclaim := claimSlot_goes (.call hargs) rfl h
    rw [selectExpr, uses, Node.labels_eq]
    refine hclaim.bind fun slot s₁ _ hk => ?_
    have hparts : Stands su U env args s₁ := h.parts rfl hk
    obtain ⟨hoffer, hname⟩ := hparts.find? hfind
    have hcallee := hoffer.1 hrole
    rw [hname] at hcallee
    refine (calleeEntry_goes hcallee).quiet_bind fun entry s₂ hk₂ => ?_
    exact (args_go pt args hargs ih env s₂ (hparts.quiet hk₂)).bind_quiet fun slots =>
      (quiet_emitCall hans ..).bind fun _ => quiet_pure _

end Expr

/-! ## Statements -/

section Stmt

variable {su : Setup} {U : Label → Prop} {env : Env} {n : Node} {tag : Tag} {s : State}

theorem exprStmt_goes (hans : Answers su) (hn : n.IsExpr) (r : BlockRef)
    (h : Stands su U env [n] s) :
    Goes su U (uses n) n.labels s (selectExprStmt su n r s) := by
  obtain ⟨tag, htag⟩ : ∃ tag, n.tag? = some tag := by cases hn <;> exact ⟨_, rfl⟩
  rw [selectExprStmt]
  simp only [htag]
  rw [if_neg (by simp [h.kind_isExpr hn htag])]
  split
  · refine (quiet_remark ..).goes.quiet_bind fun _ s₁ hk => ?_
    exact (expr_goes hans hn _ env s₁ (h.quiet hk)).bind_quiet fun _ => quiet_pure _
  · exact (expr_goes hans hn _ env s h).bind_quiet fun _ => quiet_pure _

theorem Stands.init {name : String} {type : ValueType} {init : Node}
    (h : Stands su U env [.var tag name type init] s) : Stands su U env [init] s := by
  refine h.below (L := []) (Node.parts_sublist (.var tag name type init)) ?_
    (.refl s) (by simp) (fun site hs => h.seen_one site ?_)
    h.offers
  · intro p hp m hm
    exact Node.mem_nodes_of_part (n := .var tag name type init) hp hm
  · rw [sitesAll, sitesAll, List.append_nil] at hs
    rw [sites]
    exact List.mem_cons_of_mem _ hs

theorem var_goes (hans : Answers su) {name : String} {type : ValueType} {init : Node}
    (hinit : init = .absent ∨ init.IsExpr) {pt : Point}
    (hpt : su.isGlobal name = true ∨ ∃ r, pt = .block r)
    (h : Stands su U env [.var tag name type init] s) :
    Goes su U (uses init) (Node.var tag name type init).labels s
      (selectVar su pt tag name init s) := by
  rcases hinit with rfl | hexpr
  · rw [selectVar, uses]
    exact (quiet_pure _).goes.mono (by simp)
  have hne : init ≠ .absent := by
    rintro rfl
    cases hexpr
  have hU : ¬U tag.label := by
    rw [h.marked rfl]
    rintro ⟨_, _, he⟩
    cases he
    exact hne rfl
  have hself : tag.label ∉ init.labels := by
    simpa [Node.label?, Node.tag?, Node.parts] using h.self_notMem
  have hrun : Goes su U (uses init ++ []) (init.labels ++ [tag.label]) s
      (selectVar su pt tag name init s) := by
    rw [selectVar_of_ne hne]
    refine (expr_goes hans hexpr pt env s h.init).bind fun source s₁ _ hk => ?_
    have hfree : ¬Held s₁ tag.label := by
      refine fresh_kept (M := [tag.label]) (fun l hl _ => ?_) hk (fun l hl he => ?_) _ (by simp) hU
      · rw [List.mem_singleton.mp hl]
        exact h.not_held rfl hU
      · rw [List.mem_singleton.mp he] at hl
        exact hself hl
    refine (allocate_goes hU hfree).bind_quiet fun slot => ?_
    rcases hpt with hg | ⟨r, rfl⟩
    · rw [if_pos hg]
      exact quiet_emit ..
    · exact .ite (quiet_emit ..) (quiet_emit ..)
  rw [List.append_nil] at hrun
  refine hrun.mono fun l hl => ?_
  rw [Node.labels_eq]
  simpa [Node.label?, Node.tag?, Node.parts, or_comm] using hl

theorem held_of_selectVar {pt : Point} {name : String} {init : Node} (hne : init ≠ .absent)
    {s' : State} {u : Unit} (h : selectVar su pt tag name init s = .ok u s') :
    Held s' tag.label := by
  rw [selectVar_of_ne hne, bind_eq_ok] at h
  obtain ⟨source, s₁, -, h⟩ := h
  rw [bind_eq_ok] at h
  obtain ⟨slot, s₂, halloc, h⟩ := h
  obtain ⟨-, rfl, rfl⟩ := allocate_eq_ok.mp halloc
  have hheld : Held (s₁.withOwner tag.label) tag.label := held_withOwner.mpr (.inr rfl)
  split at h
  · cases h
    exact hheld
  · cases pt with
    | globals => cases h
    | block r => cases h; exact hheld

theorem offers_var {pt : Point} {name : String} {type : ValueType} {init : Node} {s' : State}
    {u : Unit} (h : Stands su U env [.var tag name type init] s)
    (hrun : selectVar su pt tag name init s = .ok u s') : Offers U s' (varSymbol tag name) := by
  refine ⟨by simp [varSymbol], fun _ => ?_⟩
  by_cases hinit : init = .absent
  · subst hinit
    exact .inl ((h.marked rfl).mpr ⟨name, type, rfl⟩)
  · exact .inr (held_of_selectVar hinit hrun)

/-- A variable that input is read into gets a slot, unless it has one. -/
theorem lookupOrAdd_goes {decl : Decl} (name : String)
    (hfind : su.bindings.find? tag.label = some decl) (h : U decl.label ∨ Held s decl.label) :
    Goes su U [.target tag name] [] s (lookupOrAdd decl s) := by
  have hready : Ready su U s [.target tag name] := by
    intro pre t nm d post he
    cases pre <;> simp at he
  have hscanned : ∀ l, Scanned su [.target tag name] l ↔ l = decl.label := by
    intro l
    constructor
    · rintro ⟨t, nm, d, hmem, hd, rfl⟩
      cases List.mem_singleton.mp hmem
      rw [hfind] at hd
      cases hd
      rfl
    · rintro rfl
      exact ⟨tag, name, decl, by simp, hfind, rfl⟩
  by_cases hheld : Held s decl.label
  · obtain ⟨slot, hslot⟩ := exists_slot_of_held hheld
    have hrun : lookupOrAdd decl s = .ok slot s := by simp [lookupOrAdd, hslot]
    refine .of_ok hrun hready ⟨rfl, rfl, fun l hl => hl, fun l hl => ?_, fun l hl => .inl hl⟩
    rw [(hscanned l).mp hl]
    exact hheld
  · have hrun : lookupOrAdd decl s = .ok s.slots.count (s.withOwner decl.label) := by
      simp [lookupOrAdd, slot?_eq_none hheld]
      rfl
    refine .of_ok hrun hready ⟨rfl, rfl, fun l hl => ?_, fun l hl => ?_, fun l hl => ?_⟩
    · exact held_withOwner.mpr (.inl hl)
    · exact held_withOwner.mpr (.inr ((hscanned l).mp hl))
    · rcases held_withOwner.mp hl with hl | rfl
      · exact .inl hl
      · exact .inr (.inl ⟨h.resolve_right hheld, (hscanned _).mpr rfl⟩)

theorem scan_goes (hans : Answers su) {itag : Tag} {name : String} (r : BlockRef)
    (h : Stands su U env [.scan tag (.ident itag name)] s) :
    Goes su U [.target itag name] [] s (selectStmt su (.scan tag (.ident itag name)) r s) := by
  have hident : Stands su U env [.ident itag name] s :=
    h.parts rfl (.refl s)
  obtain ⟨symbol, hfind, hrole, hbound⟩ :=
    hident.seen_one ⟨.ident itag name, env⟩ (by simp [sites])
  have hkind : itag.kind = .identExpr := (Option.some.inj (hident.kind rfl)).symm
  have hslot : scannedSlot su tag (.ident itag name) s = lookupOrAdd symbol.decl s := by
    simp [scannedSlot, Node.tag?, hkind, hbound]
  have hscan : Goes su U [.target itag name] [] s (scannedSlot su tag (.ident itag name) s) := by
    rw [hslot]
    exact lookupOrAdd_goes name hbound ((h.find? hfind).1.2 hrole)
  rw [selectStmt]
  exact hscan.bind_quiet fun slot => (quiet_serve hans ..).bind fun _ => quiet_pure _

/-- Selection of the node as a statement goes on wherever the node stands. -/
def StmtGoes (su : Setup) (U : Label → Prop) (n : Node) : Prop :=
  ∀ r env s, Stands su U env [n] s → Goes su U (uses n) n.labels s (selectStmt su n r s)

theorem offers_stmt (hn : n.IsStmt) (h : Stands su U env [n] s) {r r' : BlockRef} {s' : State}
    (hrun : selectStmt su n r s = .ok r' s') : ∀ x ∈ declared n, Offers U s' x := by
  intro x hx
  obtain ⟨tag, name, type, init, rfl, rfl⟩ := declared_of_isStmt hn hx
  rw [selectStmt, bind_eq_ok] at hrun
  obtain ⟨_, s₁, hvar, hrun⟩ := hrun
  cases hrun
  exact offers_var h hvar

theorem stmts_go : ∀ (stmts : List Node), (∀ n ∈ stmts, n.IsStmt) →
    (∀ n ∈ stmts, StmtGoes su U n) → ∀ returned r env s, Stands su U env stmts s →
      Goes su U (usesAll stmts) (stmts.flatMap Node.labels) s
        (selectStmts su returned stmts r s) := by
  intro stmts
  induction stmts with
  | nil =>
    intro _ _ returned r env s _
    rw [selectStmts, usesAll]
    exact (quiet_pure r).goes
  | cons n stmts ih =>
    intro hstmt h returned r env s hs
    have hn := hstmt n (by simp)
    have hgo : ∀ s₀, Stands su U env (n :: stmts) s₀ →
        Goes su U (usesAll (n :: stmts)) ((n :: stmts).flatMap Node.labels) s₀ ((do
          let current ← selectStmt su n r
          selectStmts su (n.tag?.any fun tag => tag.kind == .returnStmt) stmts current :
            Selection BlockRef) s₀) := by
      intro s₀ hs₀
      rw [usesAll, List.flatMap_cons]
      refine (h n (by simp) r env s₀ hs₀.head).bind fun current s₁ hrun hk => ?_
      exact ih (fun m hm => hstmt m (by simp [hm])) (fun m hm => h m (by simp [hm])) _ _ _ s₁
        (hs₀.tail hk (offers_stmt hn hs₀.head hrun))
    rw [selectStmts]
    split
    · refine (quiet_remarkUnreachable hn.isAbsent).goes.quiet_bind fun _ s₁ hk => ?_
      exact hgo s₁ (hs.quiet hk)
    · exact hgo s hs

theorem Stands.stmts {stmts : List Node} (h : Stands su U env [.compound tag stmts] s) :
    Stands su U (env.enter []) stmts s := by
  refine h.below (L := []) (Node.parts_sublist (.compound tag stmts)) ?_
    (.refl s) (by simp) (fun site hs => h.seen_one site ?_)
    (h.offers.enter (by simp))
  · intro p hp m hm
    exact Node.mem_nodes_of_part (n := .compound tag stmts) hp hm
  · rw [sites]
    exact List.mem_cons_of_mem _ hs

theorem Stands.compound_kind {stmts : List Node} (h : Stands su U env [.compound tag stmts] s) :
    tag.kind = .compoundStmt := (Option.some.inj (h.kind rfl)).symm

theorem Goes.of_parts {us : List Use} {α : Type} {r : EStateM.Result Stop State α}
    (h : Goes su U us (n.parts.flatMap Node.labels) s r) : Goes su U us n.labels s r :=
  h.mono fun _ hl => (Node.parts_sublist n).subset hl

section Body

variable {stmts : List Node} (hstmt : ∀ n ∈ stmts, n.IsStmt) (hgo : ∀ n ∈ stmts, StmtGoes su U n)

include hstmt hgo

theorem compound_goes : StmtGoes su U (.compound tag stmts) := by
  intro r env s h
  rw [selectStmt, uses]
  refine .of_parts ((quiet_openBody h.compound_kind r).goes.quiet_bind fun entry s₁ hk => ?_)
  exact stmts_go stmts hstmt hgo false entry _ s₁ (h.stmts.quiet hk)

theorem body_goes (hkind : tag.kind = .compoundStmt) (r : BlockRef) (h : Stands su U env stmts s) :
    Goes su U (usesAll stmts) (stmts.flatMap Node.labels) s
      (selectBody su (.compound tag stmts) r s) := by
  rw [selectBody]
  refine (quiet_openBody hkind r).goes.quiet_bind fun entry s₁ hk => ?_
  exact (stmts_go stmts hstmt hgo false entry _ s₁ (h.quiet hk)).bind_quiet fun _ => quiet_pure _

theorem ifThen_goes (hans : Answers su) {inner : Tag} {cond : Node} (hcond : cond.IsExpr) :
    StmtGoes su U (.ifThen tag cond (.compound inner stmts)) := by
  intro r env s h
  have hparts : Stands su U env [cond, .compound inner stmts] s :=
    h.parts rfl (.refl s)
  rw [selectStmt, uses, uses]
  refine .of_parts ?_
  simp only [Node.parts, List.flatMap_cons, List.flatMap_nil, List.append_nil]
  refine (expr_goes hans hcond _ env s hparts.head).bind fun slot s₁ _ hk => ?_
  have hbody := hparts.tail hk (by simp [declared_of_isExpr hcond])
  have hgoes := body_goes hstmt hgo hbody.compound_kind r hbody.stmts
  refine (hgoes.of_parts (n := .compound inner stmts)).bind_quiet fun ends => ?_
  exact (quiet_openBlock _).bind fun _ => (quiet_emitBranch ..).bind fun _ =>
    (quiet_jump ..).bind fun _ => quiet_pure _

theorem loop_goes (hans : Answers su) {inner : Tag} {cond : Node} (hcond : cond.IsExpr) :
    StmtGoes su U (.loop tag cond (.compound inner stmts)) := by
  intro r env s h
  have hparts : Stands su U env [cond, .compound inner stmts] s :=
    h.parts rfl (.refl s)
  rw [selectStmt, uses, uses]
  refine .of_parts ((quiet_openBlock r).goes.quiet_bind fun header s₁ hk₁ => ?_)
  simp only [Node.parts, List.flatMap_cons, List.flatMap_nil, List.append_nil]
  refine (expr_goes hans hcond _ env s₁ (hparts.quiet hk₁).head).bind fun slot s₂ _ hk => ?_
  have hbody := (hparts.quiet hk₁).tail hk (by simp [declared_of_isExpr hcond])
  have hgoes := body_goes hstmt hgo hbody.compound_kind header hbody.stmts
  refine (hgoes.of_parts (n := .compound inner stmts)).bind_quiet fun ends => ?_
  exact (quiet_jump ..).bind fun _ => (quiet_openBlock _).bind fun _ =>
    (quiet_emitBranch ..).bind fun _ => quiet_pure _

end Body

/-- The expression of a statement that is nothing but an expression and what is done with
its value. -/
theorem Stands.expr {expr : Node} (h : Stands su U env [n] s) (hplain : isPlain n = true)
    (hparts : n.parts = [expr]) : Stands su U env [expr] s := by
  have hstands := h.parts hplain (.refl s)
  rwa [hparts] at hstands

/-- **Statements go on.** -/
theorem stmt_goes (hans : Answers su) (hn : n.IsStmt) : StmtGoes su U n := by
  induction hn with
  | @expr n hn =>
    intro r env s h
    have hrun : selectStmt su n r = (do selectExprStmt su n r; return r : Selection BlockRef) := by
      cases hn <;> simp only [selectStmt]
    rw [hrun]
    exact (exprStmt_goes hans hn r h).bind_quiet fun _ => quiet_pure _
  | var hinit =>
    intro r env s h
    rw [selectStmt, uses]
    exact (var_goes hans hinit (.inr ⟨r, rfl⟩) h).bind_quiet fun _ => quiet_pure _
  | compound hstmt ih => exact compound_goes hstmt ih
  | ifThen hcond hstmt ih => exact ifThen_goes hstmt ih hans hcond
  | loop hcond hstmt ih => exact loop_goes hstmt ih hans hcond
  | @print tag expr hexpr =>
    intro r env s h
    rw [selectStmt, uses]
    refine .of_parts ?_
    simp only [Node.parts, List.flatMap_singleton]
    exact (expr_goes hans hexpr _ env s (h.expr rfl rfl)).bind_quiet fun value =>
      (quiet_serve hans ..).bind fun _ => quiet_pure _
  | @ret tag expr hexpr =>
    intro r env s h
    have hend : Quiet (do
        emit (.block r) .ret []
        return r : Selection BlockRef) := (quiet_emit ..).bind fun _ => quiet_pure _
    rw [selectStmt, uses]
    rcases hexpr with rfl | hexpr
    · rw [uses]
      exact hend.goes.mono (by simp)
    · rw [if_pos (by simp [hexpr.isAbsent])]
      refine .of_parts ?_
      simp only [Node.parts, List.flatMap_singleton]
      exact (expr_goes hans hexpr _ env s (h.expr rfl rfl)).bind_quiet fun value =>
        (quiet_serve hans ..).bind fun _ => hend
  | scan =>
    intro r env s h
    rw [uses]
    exact (scan_goes hans r h).mono (by simp)

end Stmt

/-! ## Declarations of the top level -/

/-- The functions among the declarations are declared. -/
def Known (decls : List Node) (s : State) : Prop :=
  ∀ tag name params result body, .function tag name params result body ∈ decls →
    ∃ f sig, s.module.function? name = some f ∧
      s.signatures.find? (fun sig => sig.name == name) = some sig ∧ sig.label = tag.label

section Top

variable {su : Setup} {U : Label → Prop} {us : List Use} {L : List Label} {env : Env}
  {decls : List Node} {tag : Tag} {name : String} {s s₁ : State}

theorem Known.kept (h : Known decls s) (hk : Kept su U us L s s₁) : Known decls s₁ := by
  intro tag name params result body hd
  rw [Module.function?, hk.functions, hk.signatures]
  exact h tag name params result body hd

theorem functionGraph_goes {params : List Node} {result : ValueType} {body : Node}
    (h : Known decls s) (hd : .function tag name params result body ∈ decls) :
    Goes su U [] [] s (functionGraph tag name result s) := by
  obtain ⟨f, sig, hf, hsig, hlabel⟩ := h tag name params result body hd
  have hrun : functionGraph tag name result s = .ok f.graph s := by
    rw [functionGraph, get_bind_apply]
    simp [hf, hsig, hlabel]
  exact .of_ok hrun ready_nil (.refl s)

theorem params_go (function : String) : ∀ (params : List Node),
    (∀ p ∈ params, ∃ ptag pname type, p = .param ptag pname type) →
    ∀ env s, Stands su U env params s →
      Goes su U [] (params.flatMap Node.labels) s (selectParams function params s) := by
  intro params
  induction params with
  | nil =>
    intro _ env s _
    rw [selectParams]
    exact (quiet_pure []).goes
  | cons p params ih =>
    intro hform env s h
    obtain ⟨ptag, pname, type, rfl⟩ := hform p (by simp)
    have hkind : ptag.kind = .paramDecl := (Option.some.inj (h.head.kind rfl)).symm
    have hU : ¬U ptag.label := by
      rw [h.head.marked rfl]
      rintro ⟨_, _, he⟩
      cases he
    have hlabels : (Node.param ptag pname type).labels = [ptag.label] := by
      rw [Node.labels_eq]
      rfl
    rw [selectParams, List.flatMap_cons]
    simp only [Node.tag?, hkind]
    rw [if_neg (by simp)]
    have halloc : Goes su U [] (Node.param ptag pname type).labels s (allocate ptag s) := by
      rw [hlabels]
      exact allocate_goes hU (h.head.not_held rfl hU)
    refine halloc.bind fun slot s₁ _ hk => ?_
    have hrest := ih (fun q hq => hform q (by simp [hq])) _ s₁ (h.tail hk (by simp [declared]))
    exact hrest.bind_quiet fun slots => quiet_pure _

theorem usesAll_params : ∀ (params : List Node),
    (∀ p ∈ params, ∃ ptag pname type, p = .param ptag pname type) → usesAll params = [] := by
  intro params
  induction params with
  | nil => intro _; rw [usesAll]
  | cons p params ih =>
    intro h
    obtain ⟨ptag, pname, type, rfl⟩ := h p (by simp)
    rw [usesAll, uses, ih fun q hq => h q (by simp [hq])]
    rfl

theorem offers_params {function : String} {params : List Node} {slots : List Slot}
    (hrun : selectParams function params s = .ok slots s₁) :
    ∀ x ∈ paramSymbols params, Offers U s₁ x := by
  intro x hx
  obtain ⟨p, hp, hlabel⟩ := label_of_paramSymbols hx
  obtain ⟨-, -, hmap⟩ := selectParams_laid params s s₁ slots hrun .globals
  have hmem : s₁.slots.slot? p.label? ∈ slots.map some := by
    rw [← hmap s₁ (Grows.refl s₁)]
    exact List.mem_map_of_mem hp
  obtain ⟨slot, -, hslot⟩ := List.mem_map.mp hmem
  rw [hlabel] at hslot
  refine ⟨fun hr => ?_, fun _ => .inr (held_of_slot? hslot.symm)⟩
  obtain ⟨⟨y, pos⟩, hy, rfl⟩ := List.mem_map.mp hx
  obtain ⟨q, -, hq⟩ := List.mem_filterMap.mp hy
  obtain ⟨qtag, -, he⟩ := Option.map_eq_some_iff.mp hq
  cases he
  cases hr

section Function

variable {inner : Tag} {params stmts : List Node} {result : ValueType}

theorem function_labels :
    (Node.function tag name params result (.compound inner stmts)).labels =
      tag.label :: (params.flatMap Node.labels ++ inner.label :: stmts.flatMap Node.labels) := by
  rw [Node.labels_eq, Node.parts, List.flatMap_append, List.flatMap_singleton,
    Node.labels_eq (.compound inner stmts)]
  rfl

theorem Stands.functionParams
    (h : Stands su U env [.function tag name params result (.compound inner stmts)] s)
    (hform : ∀ p ∈ params, ∃ ptag pname type, p = .param ptag pname type) :
    Stands su U env params s := by
  have hnone : ∀ p ∈ params, declared p = [] := by
    intro p hp
    obtain ⟨ptag, pname, type, rfl⟩ := hform p hp
    rw [declared]
  refine h.below (L := []) ?_
    (fun p hp m hm => Node.mem_nodes_of_part (by simp [Node.parts, hp]) hm)
    (.refl s) (by simp) (fun site hs => ?_) h.offers
  · rw [function_labels]
    exact (List.sublist_append_left _ _).cons _
  · rw [sitesAll_of_declared params hnone] at hs
    obtain ⟨p, hp, hs⟩ := List.mem_flatMap.mp hs
    obtain ⟨ptag, pname, type, rfl⟩ := hform p hp
    simp only [sites, List.mem_singleton] at hs
    rw [hs]
    trivial

theorem Stands.functionBody
    (h : Stands su U env [.function tag name params result (.compound inner stmts)] s)
    (hk : Kept su U us (params.flatMap Node.labels) s s₁)
    (hoffers : ∀ x ∈ paramSymbols params, Offers U s₁ x) :
    Stands su U (env.enter (paramSymbols params).reverse) stmts s₁ := by
  have hnodup := h.nodup
  rw [List.flatMap_singleton, function_labels, List.nodup_cons, List.nodup_append'] at hnodup
  refine h.below ?_ (fun p hp m hm => ?_) hk (fun l hl hmem => ?_) (fun site hs => ?_)
    ((h.offers_kept hk).enter fun x hx => hoffers x (List.mem_reverse.mp hx))
  · rw [function_labels]
    exact (((List.sublist_cons_self _ _)).trans (List.sublist_append_right _ _)).cons _
  · have hbody : Node.compound inner stmts ∈
        (Node.function tag name params result (.compound inner stmts)).parts := by
      simp [Node.parts]
    exact Node.mem_nodes_of_part hbody (Node.mem_nodes_of_part hp hm)
  · exact hnodup.2.2.2 hl (List.mem_cons_of_mem _ hmem)
  · refine h.seen_one site ?_
    rw [sites]
    exact List.mem_cons_of_mem _ hs

/-- **A function goes on.** -/
theorem function_goes (hans : Answers su)
    (hform : ∀ p ∈ params, ∃ ptag pname type, p = .param ptag pname type)
    (hstmt : ∀ n ∈ stmts, n.IsStmt) (hknown : Known decls s)
    (hd : .function tag name params result (.compound inner stmts) ∈ decls)
    (h : Stands su U env [.function tag name params result (.compound inner stmts)] s) :
    Goes su U (usesAll stmts)
      (Node.function tag name params result (.compound inner stmts)).labels s
      (selectFunction su tag name params result (.compound inner stmts) s) := by
  have hkind : inner.kind = .compoundStmt := by
    have hbody : Node.compound inner stmts ∈
        (Node.function tag name params result (.compound inner stmts)).parts := by
      simp [Node.parts]
    have hmem := Node.mem_nodes_of_part hbody (Node.mem_nodes_self rfl)
    exact Option.some.inj (h.tree _ (by simp) _ hmem).1
  -- Behind the parameters comes the body.
  have hrest : ∀ s₀ (entry : BlockRef),
      Stands su U (env.enter (paramSymbols params).reverse) stmts s₀ →
      Goes su U (usesAll stmts) (stmts.flatMap Node.labels) s₀ ((do
        if (Node.compound inner stmts).tag?.any fun t => t.kind == .compoundStmt then
          let _ ← selectBody su (.compound inner stmts) entry
        else fail tag.pos (.noBody name) : Selection Unit) s₀) := by
    intro s₀ entry hs₀
    rw [if_pos (by simp [Node.tag?, hkind])]
    exact (body_goes hstmt (fun n hn => stmt_goes hans (hstmt n hn)) hkind entry hs₀).bind_quiet
      fun _ => quiet_pure _
  have hall : Goes su U (usesAll stmts)
      (params.flatMap Node.labels ++ stmts.flatMap Node.labels) s
      (selectFunction su tag name params result (.compound inner stmts) s) := by
    rw [selectFunction]
    refine (functionGraph_goes hknown hd).quiet_bind fun g s₁ hk₁ => ?_
    have h₁ := h.quiet hk₁
    by_cases hempty : params = []
    · subst hempty
      exact hrest s₁ ⟨g, 0⟩ (h₁.functionBody (.refl s₁) (by simp [paramSymbols]))
    · rw [if_pos (by simpa using hempty)]
      refine (params_go name params hform env s₁ (h₁.functionParams hform)).bind
        fun slots s₂ hrun hk₂ => ?_
      have hbody := h₁.functionBody hk₂ (offers_params hrun)
      refine (quiet_serve hans ..).goes.quiet_bind fun _ s₃ hk₃ => ?_
      exact hrest s₃ ⟨g, 0⟩ (hbody.quiet hk₃)
  refine hall.mono fun l hl => ?_
  rw [function_labels]
  simp only [List.mem_append, List.mem_cons] at hl ⊢
  tauto

end Function

variable {d : Node}

theorem decl_goes (hans : Answers su) (htop : d.IsTop) (hd : d ∈ decls) (hknown : Known decls s)
    (hglobal : ∀ name ∈ globalNames [d], su.isGlobal name = true)
    (h : Stands su U env [d] s) : Goes su U (uses d) d.labels s (selectDecl su d s) := by
  cases htop with
  | @function tag inner name params stmts result hform hstmt =>
    have hkind : tag.kind = .functionDecl := (Option.some.inj (h.kind rfl)).symm
    have huses : uses (.function tag name params result (.compound inner stmts)) =
        usesAll stmts := by
      rw [uses, uses, usesAll_params params hform]
      rfl
    rw [huses]
    simp only [selectDecl, Node.tag?, hkind]
    exact function_goes hans hform hstmt hknown hd h
  | @var tag name type init hinit =>
    have hkind : tag.kind = .varDecl := (Option.some.inj (h.kind rfl)).symm
    rw [uses]
    simp only [selectDecl, Node.tag?, hkind]
    exact var_goes hans hinit (.inl (hglobal name (by simp [globalNames]))) h

theorem offers_decl (htop : d.IsTop) (h : Stands su U env [d] s) {u : Unit}
    (hrun : selectDecl su d s = .ok u s₁) : ∀ x ∈ declared d, Offers U s₁ x := by
  cases htop with
  | function => simp [declared]
  | @var tag name type init hinit =>
    have hkind : tag.kind = .varDecl := (Option.some.inj (h.kind rfl)).symm
    simp only [selectDecl, Node.tag?, hkind] at hrun
    rw [declared, declared_of_optional hinit, List.nil_append, List.forall_mem_singleton]
    exact offers_var h hrun

/-- **The declarations of a program go on**, one after the other. -/
theorem decls_go (hans : Answers su)
    (hglobal : ∀ name ∈ globalNames decls, su.isGlobal name = true) :
    ∀ (ds : List Node), (∀ d ∈ ds, d.IsTop) → (∀ d ∈ ds, d ∈ decls) → ∀ env s, Known decls s →
      Stands su U env ds s →
        Goes su U (usesAll ds) (ds.flatMap Node.labels) s (ds.forM (selectDecl su) s) := by
  intro ds
  induction ds with
  | nil =>
    intro _ _ env s _ _
    rw [usesAll]
    exact (quiet_pure ()).goes
  | cons d ds ih =>
    intro htop hsub env s hknown h
    have hd := hsub d (by simp)
    have hname : ∀ name ∈ globalNames [d], su.isGlobal name = true := by
      intro name hname
      obtain ⟨e, he, hval⟩ := List.mem_filterMap.mp hname
      rw [List.mem_singleton.mp he] at hval
      exact hglobal name (List.mem_filterMap.mpr ⟨d, hd, hval⟩)
    rw [forM_cons_apply, usesAll, List.flatMap_cons]
    refine (decl_goes hans (htop d (by simp)) hd hknown hname h.head).bind fun _ s₁ hrun hk => ?_
    exact ih (fun e he => htop e (by simp [he])) (fun e he => hsub e (by simp [he])) _ s₁
      (hknown.kept hk) (h.tail hk (offers_decl (htop d (by simp)) h.head hrun))

end Top

/-! ## Functions are declared first -/

theorem Known.grows {ns : List Node} {s s' : State} (h : Known ns s) (hg : Grows s s') :
    Known ns s' := by
  intro tag name params result body hd
  obtain ⟨f, sig, hf, hsig, hlabel⟩ := h tag name params result body hd
  obtain ⟨rest, hrest⟩ := hg.signatures
  refine ⟨f, sig, hg.function? hf, ?_, hlabel⟩
  rw [← hrest, List.find?_append, hsig]
  rfl

/-- The name is not declared yet. -/
def Undeclared (s : State) (name : String) : Prop :=
  s.module.function? name = none ∧ s.signatures.find? (fun sig => sig.name == name) = none

theorem Reserved.undeclared {tag : Tag} {name other : String} {result : ValueType} {g : Nat}
    {s s' : State} (h : Reserved tag name result g s s') (hne : name ≠ other)
    (hu : Undeclared s other) : Undeclared s' other := by
  have hne' : (name == other) = false := by simpa using hne
  refine ⟨?_, ?_⟩
  · rw [Module.function?, h.functions, List.find?_append, ← Module.function?, hu.1]
    simp [hne']
  · rw [h.signatures, List.find?_append, hu.2]
    simp [hne']

theorem Reserved.known {tag : Tag} {name : String} {result : ValueType} {g : Nat}
    {s s' : State} (h : Reserved tag name result g s s') (hu : Undeclared s name)
    (params : List Node) (body : Node) :
    Known [.function tag name params result body] s' := by
  intro tag' name' params' result' body' hd
  cases List.mem_singleton.mp hd
  refine ⟨⟨name, g⟩, ⟨name, tag.label, result⟩, ?_, ?_, rfl⟩
  · rw [Module.function?, h.functions, List.find?_append, ← Module.function?, hu.1]
    simp
  · rw [h.signatures, List.find?_append, hu.2]
    simp

theorem reserve_known : ∀ (ns : List Node) (s : State), (∀ d ∈ ns, IsDecl d) →
    (functionNames ns).Nodup → (∀ name ∈ functionNames ns, Undeclared s name) →
      ∃ s', ns.forM reserveDecl s = .ok ⟨⟩ s' ∧ s'.slots = s.slots ∧ Grows s s' ∧ Known ns s' := by
  intro ns
  induction ns with
  | nil =>
    intro s _ _ _
    exact ⟨s, rfl, rfl, Grows.refl s, fun _ _ _ _ _ hd => by simp at hd⟩
  | cons d ns ih =>
    intro s hdecl hnodup hnew
    have hrest := fun s₁ => ih s₁ fun e he => hdecl e (by simp [he])
    cases hdecl d (by simp) with
    | @function tag name params result body hk =>
      have hcons : functionNames (.function tag name params result body :: ns) =
          name :: functionNames ns := rfl
      rw [hcons, List.nodup_cons] at hnodup
      rw [hcons, List.forall_mem_cons] at hnew
      obtain ⟨s₁, hrun, hspec⟩ := reserveFunction_spec tag result hnew.1.1
      have hnew₁ : ∀ other ∈ functionNames ns, Undeclared s₁ other := fun other hother =>
        hspec.undeclared (fun he => hnodup.1 (he ▸ hother)) (hnew.2 other hother)
      obtain ⟨s₂, hrun₂, hslots, hgrows, hknown⟩ := hrest s₁ hnodup.2 hnew₁
      have hdeclare : reserveDecl (.function tag name params result body) s = .ok ⟨⟩ s₁ := by
        simp only [reserveDecl, Node.tag?, hk, if_true]
        rw [bind_of_ok hrun]
        rfl
      refine ⟨s₂, ?_, hslots.trans hspec.slots, hspec.grows.trans hgrows, ?_⟩
      · rw [forM_cons_apply, bind_of_ok hdeclare, hrun₂]
      · intro tag' name' params' result' body' hd
        rcases List.mem_cons.mp hd with hd | hd
        · exact (hspec.known hnew.1 params body).grows hgrows _ _ _ _ _ (List.mem_singleton.mpr hd)
        · exact hknown _ _ _ _ _ hd
    | @var tag name type init hk =>
      obtain ⟨s₂, hrun₂, hslots, hgrows, hknown⟩ := hrest s hnodup hnew
      have hskip : reserveDecl (.var tag name type init) s = .ok ⟨⟩ s := by
        simp [reserveDecl, Node.tag?, hk]
      refine ⟨s₂, ?_, hslots, hgrows, fun tag' name' params' result' body' hd => ?_⟩
      · rw [forM_cons_apply, bind_of_ok hskip, hrun₂]
      · exact hknown _ _ _ _ _ (by simpa using hd)

/-! ## Whole programs -/

/-- The labels of the variables of a tree that have no initializer. -/
def Uninitialized (root : Node) (l : Label) : Prop :=
  ∃ tag name type, .var tag name type .absent ∈ root.nodes ∧ tag.label = l

/-- At an identifier, the variable it is bound to has a value: it is a parameter, or has an
initializer, or input is read into it at one of the uses `before`. -/
def Supplied (b : Bindings) (root : Node) (before : List Use) (tag : Tag) : Prop :=
  ∃ d ∈ root.nodes, b.find? tag.label = d.decl? ∧
    match d with
    | .param .. => True
    | .var _ _ _ .absent =>
      ∃ ttag name, .target ttag name ∈ before ∧ b.find? ttag.label = b.find? tag.label
    | .var .. => True
    | _ => False

theorem answers_of_stack {su : Setup} (hconv : su.hooks.convention = .stack)
    (hio : ∀ served request, request.isIO = true → ∃ out, su.hooks.io served request = .ok out) :
    Answers su := by
  intro served request
  rw [Hooks.answer]
  by_cases h : request.isIO = true
  · rw [if_pos h]
    exact hio served request h
  · rw [if_neg h, hconv]
    exact ⟨_, rfl⟩

section Program

variable {su : Setup} {tag : Tag} {decls : List Node}

theorem marked_of_unshared {root : Node} (hu : root.Unshared) :
    ∀ m ∈ root.nodes, Marked (Uninitialized root) m := by
  intro m hm tag htag
  constructor
  · rintro ⟨vtag, name, type, hvar, hlabel⟩
    have he : m = .var vtag name type .absent := by
      refine Node.eq_of_label_eq hu hm hvar (l := tag.label) ?_ ?_
      · rw [Node.label?, htag]
        rfl
      · rw [← hlabel]
        rfl
    subst he
    cases htag
    exact ⟨name, type, rfl⟩
  · rintro ⟨name, type, rfl⟩
    exact ⟨tag, name, type, hm, rfl⟩

/-- An identifier is bound to a variable or a parameter of the program. -/
theorem bound_of_ident (hform : WellFormed tag decls)
    (hseen : ∀ s ∈ programSites decls, Seen su s) {itag : Tag} {name : String}
    (hm : .ident itag name ∈ (Node.program tag decls).nodes) :
    ∃ d ∈ (Node.program tag decls).nodes, su.bindings.find? itag.label = d.decl? ∧
      ((∃ ptag pname type, d = .param ptag pname type) ∨
        ∃ vtag vname type init, d = .var vtag vname type init) := by
  obtain ⟨env, hs⟩ := programSites_cover hform.functions hm
  obtain ⟨symbol, hfind, hrole, hbound⟩ := hseen _ hs
  obtain ⟨⟨f, hf, hmem⟩, -⟩ := Env.mem_of_find? hfind
  obtain ⟨d, hd, hby⟩ := programSites_from hform.functions _ hs f hf symbol hmem
  refine ⟨d, hd, hbound.trans hby.decl?.symm, ?_⟩
  cases hby with
  | var => exact .inr ⟨_, _, _, _, rfl⟩
  | param => exact .inl ⟨_, _, _, rfl⟩
  | function => exact absurd rfl hrole

/-- Where nothing has a slot yet, being ready is being supplied. -/
theorem ready_iff_supplied (hform : WellFormed tag decls) (hu : (Node.program tag decls).Unshared)
    (hseen : ∀ s ∈ programSites decls, Seen su s) {s : State} (hnone : ∀ l, ¬Held s l) :
    Ready su (Uninitialized (.program tag decls)) s (uses (.program tag decls)) ↔
      ∀ before itag name after, uses (.program tag decls) = before ++ .value itag name :: after →
        Supplied su.bindings (.program tag decls) before itag := by
  have hident : ∀ u ∈ uses (.program tag decls), u.node ∈ (Node.program tag decls).nodes :=
    fun u hmem => Node.mem_nodes_of_uses _ hmem
  constructor
  · intro hr before itag name after he
    have hm := hident (.value itag name) (by rw [he]; simp)
    obtain ⟨d, hd, hbound, hshape⟩ := bound_of_ident hform hseen hm
    refine ⟨d, hd, hbound, ?_⟩
    rcases hshape with ⟨ptag, pname, type, rfl⟩ | ⟨vtag, vname, type, init, rfl⟩
    · trivial
    cases init with
    | absent =>
      have hU : Uninitialized (.program tag decls) vtag.label := ⟨vtag, vname, type, hd, rfl⟩
      have hready := hr before itag name ⟨vtag.label, vtag.kind, vname⟩ after he hbound hU
      obtain ⟨ttag, tname, decl, htarget, htbound, hlabel⟩ := hready.resolve_left (hnone _)
      refine ⟨ttag, tname, htarget, ?_⟩
      -- The variable that input is read into has the same label, so it is the same one.
      have htm := hident (.target ttag tname) (by rw [he]; exact List.mem_append_left _ htarget)
      obtain ⟨d', hd', hbound', -⟩ := bound_of_ident hform hseen htm
      have hlabel' := Node.label?_of_decl? (hbound'.symm.trans htbound)
      rw [hlabel] at hlabel'
      have hsame : d' = .var vtag vname type .absent :=
        Node.eq_of_label_eq hu hd' hd hlabel' rfl
      rw [hbound', hbound, hsame]
    | _ => trivial
  · intro hsup before itag name decl after he hbound hU
    obtain ⟨d, hd, hbound', hshape⟩ := hsup before itag name after he
    obtain ⟨vtag, vname, type, hvar, hlabel⟩ := hU
    have hsame : d = .var vtag vname type .absent := by
      refine Node.eq_of_label_eq hu hd hvar (Node.label?_of_decl? (hbound'.symm.trans hbound)) ?_
      rw [← hlabel]
      rfl
    subst hsame
    obtain ⟨ttag, tname, htarget, htbound⟩ := hshape
    exact .inr ⟨ttag, tname, decl, htarget, htbound.trans hbound, rfl⟩

theorem isDecl_of_isTop {d : Node} (htop : d.IsTop) (hagree : d.Agrees) : IsDecl d := by
  cases htop with
  | function => exact .function (Option.some.inj hagree)
  | var => exact .var (Option.some.inj hagree)

/-- Lowering begins when the functions are declared, and nothing has a slot then. -/
theorem select_eq (hkind : tag.kind = .program) (hdecl : ∀ d ∈ decls, IsDecl d)
    (hnames : (functionNames decls).Nodup) (hforward : su.config.uses .forwardCalls = true) :
    ∃ s, select su (.program tag decls) = decls.forM (selectDecl su) s ∧ Known decls s ∧
      ∀ l, ¬Held s l := by
  obtain ⟨s, hrun, hslots, -, hknown⟩ := reserve_known decls {} hdecl hnames fun _ _ => ⟨rfl, rfl⟩
  refine ⟨s, ?_, hknown, fun l hl => ?_⟩
  · rw [select_of_kind su hkind, selectDecls, if_pos hforward]
    exact bind_of_ok hrun
  · rw [Held, hslots] at hl
    simp at hl

theorem stands_program (hu : (Node.program tag decls).Unshared)
    (hagree : ∀ m ∈ (Node.program tag decls).nodes, m.Agrees)
    (hseen : ∀ s ∈ programSites decls, Seen su s) {s : State} (hknown : Known decls s)
    (hnone : ∀ l, ¬Held s l) :
    Stands su (Uninitialized (.program tag decls)) (programEnv decls) decls s := by
  refine ⟨hseen, ?_, fun d hd m hm => ?_, Node.nodup_parts hu, fun l _ _ => hnone l⟩
  · refine List.forall_mem_cons.mpr ⟨fun x hx => ?_, by simp [programEnv]⟩
    rw [programEnv, List.mem_reverse] at hx
    obtain ⟨d, hd, hsymbol⟩ := List.mem_filterMap.mp hx
    cases d with
    | function ftag name params result body =>
      cases hsymbol
      obtain ⟨f, -, hf, -, -⟩ := hknown ftag name params result body hd
      exact ⟨fun _ => by rw [hf]; rfl, fun hr => absurd rfl hr⟩
    | _ => cases hsymbol
  · have hm' := Node.mem_nodes_of_part (n := .program tag decls) hd hm
    exact ⟨hagree m hm', marked_of_unshared hu m hm'⟩

/-- **Progress.**  A program of the grammar, without sharing and accepted by resolution, is
lowered exactly if every identifier whose value is asked for is supplied: it is bound to a
parameter, to a variable with initializer, or to a variable that input is read into earlier
in program order.  Nothing else can stop selection. -/
theorem select_progress (htop : ∀ d ∈ decls, d.IsTop)
    (hagree : ∀ m ∈ (Node.program tag decls).nodes, m.Agrees)
    (hu : (Node.program tag decls).Unshared) {t : Table} {b₀ b : Bindings}
    (hres : resolveProgram (.program tag decls) b₀ = .ok t b) (hb : su.bindings = b)
    (hg : su.isGlobal = t.isGlobal) (hforward : su.config.uses .forwardCalls = true)
    (hconv : su.hooks.convention = .stack)
    (hio : ∀ served request, request.isIO = true → ∃ out, su.hooks.io served request = .ok out) :
    ((∃ u fin, select su (.program tag decls) = .ok u fin) ↔
      ∀ before itag name after, uses (.program tag decls) = before ++ .value itag name :: after →
        Supplied b (.program tag decls) before itag) ∧
    ∀ e s, select su (.program tag decls) = .error e s →
      ∃ pos kind name, e = .fault ⟨pos, .slot (.unlowered kind name)⟩ := by
  have hform := wellFormed_of_isTop htop hagree
  obtain ⟨-, hres⟩ := (resolveProgram_eq_ok hform.kind hform.proper).mp hres
  have hseen := programSites_seen hres hu hb hg
  have hglobal : ∀ name ∈ globalNames decls, su.isGlobal name = true := fun name hname => by
    rw [hg]
    exact (hres.isGlobal name).mpr hname
  have hdecl : ∀ d ∈ decls, IsDecl d := fun d hd =>
    isDecl_of_isTop (htop d hd) (hform.proper d hd).2
  obtain ⟨s₀, hrun, hknown, hnone⟩ := select_eq hform.kind hdecl hres.functions hforward
  have hgoes := decls_go (answers_of_stack hconv hio) hglobal decls htop (fun _ hd => hd) _ s₀
    hknown (stands_program hu hagree hseen hknown hnone)
  have hready := ready_iff_supplied hform hu hseen hnone
  rw [hb, uses] at hready
  rw [hrun, uses, ← hready]
  cases hout : decls.forM (selectDecl su) s₀ with
  | ok u fin =>
    rw [hout] at hgoes
    refine ⟨iff_of_true ⟨u, fin, rfl⟩ hgoes.1, ?_⟩
    rintro e s he
    cases he
  | error e s =>
    rw [hout] at hgoes
    refine ⟨iff_of_false ?_ hgoes.1, ?_⟩
    · rintro ⟨u, fin, he⟩
      cases he
    · rintro e' s' he
      cases he
      exact hgoes.2

end Program

/-- Selection behind resolution that declares all functions first. -/
def forwardSetup (t : Table) (b : Bindings) : Setup :=
  { stackSetup t b with
    config := Settings.Config.withFeature {} Settings.Feature.forwardCalls.number true }

/-- A function that reads a variable of the program scope, and one that is called before it
is declared and has the value of the variable. -/
def readingDecls : List Node :=
  [.var (.nowhere 1 .varDecl) "g" .int .absent,
   .function (.nowhere 2 .functionDecl) "main" [.param (.nowhere 3 .paramDecl) "n" .int] .void
    (.compound (.nowhere 4 .compoundStmt)
      [.scan (.nowhere 5 .scanStmt) (.ident (.nowhere 6 .identExpr) "g"),
       .ifThen (.nowhere 7 .ifStmt)
        (.binary (.nowhere 8 .binaryExpr) .lt (.ident (.nowhere 9 .identExpr) "g")
          (.ident (.nowhere 10 .identExpr) "n"))
        (.compound (.nowhere 11 .compoundStmt) [.call (.nowhere 12 .callExpr) "show" []])]),
   .function (.nowhere 13 .functionDecl) "show" [] .void
    (.compound (.nowhere 14 .compoundStmt)
      [.print (.nowhere 15 .printStmt) (.ident (.nowhere 16 .identExpr) "g")])]

theorem readingDecls_progress : ∃ t b fin,
    resolveProgram (.program (.nowhere 0 .program) readingDecls) {} = .ok t b ∧
      select (forwardSetup t b) (.program (.nowhere 0 .program) readingDecls) = .ok () fin ∧
      ∀ before itag name after, uses (.program (.nowhere 0 .program) readingDecls) =
          before ++ .value itag name :: after →
        Supplied b (.program (.nowhere 0 .program) readingDecls) before itag := by
  have hlowers : lowers forwardSetup (.program (.nowhere 0 .program) readingDecls) = true := by
    decide +kernel
  obtain ⟨t, b, fin, hres, hsel⟩ := exists_of_lowers hlowers
  have htop : ∀ d ∈ readingDecls, d.IsTop := by
    simp only [readingDecls, List.forall_mem_cons]
    refine ⟨.var (.inl rfl), .function (by simp) ?_, .function (by simp) ?_, by simp⟩
    · simp only [List.forall_mem_cons]
      refine ⟨.scan, .ifThen (.binary rfl .ident .ident) ?_, by simp⟩
      exact List.forall_mem_singleton.mpr (.expr (.call (by simp)))
    · exact List.forall_mem_singleton.mpr (.print .ident)
  have hagree : ∀ m ∈ (Node.program (.nowhere 0 .program) readingDecls).nodes, m.Agrees := by
    decide
  have hu : (Node.program (.nowhere 0 .program) readingDecls).Unshared := by
    unfold Node.Unshared
    decide
  have hio : ∀ served request, request.isIO = true →
      ∃ out, (forwardSetup t b).hooks.io served request = .ok out := fun _ _ _ => ⟨_, rfl⟩
  have hprogress := select_progress htop hagree hu hres rfl rfl rfl rfl hio
  exact ⟨t, b, fin, hres, hsel, hprogress.1.mp ⟨(), fin, hsel⟩⟩

end Isel.Select
