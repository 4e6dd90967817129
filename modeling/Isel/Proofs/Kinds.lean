import Isel.Proofs.InStep
import Isel.Proofs.Stops

/-!
# Places and kinds

A node is lowered at some `Place` of a program, by its kind, by its payload or by both.  At some
places only one of the two is looked at: a parameter by its kind, most statements by their
payload, and an expression must have the kind and the payload of an expression but not of the
same one.  `Place.admits` is the table, and `Node.lowered` says which nodes are lowered, where.

A computation `Requires` what holds whenever it ends well.  The lowering of a program requires
that all nodes are admitted at their places (`requires_selectProgram`).
-/

namespace Isel.Syntax

inductive Place where
  | program
  /-- A declaration of the program. -/
  | declaration
  | parameter
  /-- The body of a function, an `if` or a `while`. -/
  | body
  | statement
  | expression
  /-- The variable that a scan writes to. -/
  | target
  deriving DecidableEq, Repr

/-- The kinds and payloads of the nodes that are lowered at a place. -/
def Place.admits (kind : Kind) (payload : Option Kind) : Place → Bool
  | .program => kind == .program && payload == some .program
  | .declaration =>
    (payload == some .functionDecl || payload == some .varDecl) && some kind == payload
  | .parameter => kind == .paramDecl
  | .body => kind == .compoundStmt && payload == some .compoundStmt
  | .statement =>
    match payload with
    | some .varDecl | some .ifStmt | some .whileStmt | some .returnStmt | some .printStmt
    | some .scanStmt => true
    | some .compoundStmt => kind == .compoundStmt
    | _ => kind.isExpr && payload.any Kind.isExpr
  | .expression => kind.isExpr && payload.any Kind.isExpr
  | .target => kind == .identExpr && payload == some .identExpr

/-- The node is lowered at the place, if the rest of the program is. -/
def Place.Admits (p : Place) (n : Node) : Prop :=
  n.tag?.any (fun tag => p.admits tag.kind n.payloadKind?) = true

instance (p : Place) (n : Node) : Decidable (p.Admits n) :=
  inferInstanceAs (Decidable (n.tag?.any (fun tag => p.admits tag.kind n.payloadKind?) = true))

namespace Node

mutual

/-- The nodes that are lowered with a node at a place, each with its own place. -/
def lowered (p : Place) : Node → List (Place × Node)
  | .absent => []
  | .program tag decls =>
    (p, .program tag decls) :: if p = .program then loweredAll .declaration decls else []
  | .function tag name params result body =>
    (p, .function tag name params result body) ::
      if p = .declaration then loweredAll .parameter params ++ lowered .body body else []
  | .var tag name type init =>
    (p, .var tag name type init) ::
      if p = .declaration ∨ p = .statement then lowered .expression init else []
  | .compound tag stmts =>
    (p, .compound tag stmts) ::
      if p = .body ∨ p = .statement then loweredAll .statement stmts else []
  | .ifThen tag cond body =>
    (p, .ifThen tag cond body) ::
      if p = .statement then lowered .expression cond ++ lowered .body body else []
  | .loop tag cond body =>
    (p, .loop tag cond body) ::
      if p = .statement then lowered .expression cond ++ lowered .body body else []
  | .ret tag expr =>
    (p, .ret tag expr) :: if p = .statement then lowered .expression expr else []
  | .print tag expr =>
    (p, .print tag expr) :: if p = .statement then lowered .expression expr else []
  | .scan tag target =>
    (p, .scan tag target) :: if p = .statement then lowered .target target else []
  | .binary tag op left right =>
    (p, .binary tag op left right) ::
      if p = .expression ∨ p = .statement then lowered .expression left ++ lowered .expression right
      else []
  | .call tag callee args =>
    (p, .call tag callee args) ::
      if p = .expression ∨ p = .statement then loweredAll .expression args else []
  | .bare tag => [(p, .bare tag)]
  | .param tag name type => [(p, .param tag name type)]
  | .boolean tag value => [(p, .boolean tag value)]
  | .ident tag name => [(p, .ident tag name)]
  | .number tag value => [(p, .number tag value)]
  | .string tag bytes => [(p, .string tag bytes)]

/-- The nodes that are lowered with the nodes of a list, all at one place. -/
def loweredAll (p : Place) : List Node → List (Place × Node)
  | [] => []
  | n :: rest => lowered p n ++ loweredAll p rest

end

/-- All nodes that are lowered with a node at a place are admitted. -/
def Admitted (p : Place) (n : Node) : Prop := ∀ v ∈ n.lowered p, v.1.Admits v.2

section Admitted

variable {p : Place}

theorem loweredAll_eq (p : Place) : ∀ ns : List Node,
    loweredAll p ns = ns.flatMap (lowered p) := by
  intro ns
  induction ns with
  | nil => rw [loweredAll]; rfl
  | cons n ns ih => rw [loweredAll, ih, List.flatMap_cons]

theorem forall_loweredAll {ns : List Node} :
    (∀ v ∈ loweredAll p ns, v.1.Admits v.2) ↔ ∀ n ∈ ns, Admitted p n := by
  rw [loweredAll_eq]
  simp only [List.mem_flatMap, Admitted]
  constructor
  · exact fun h n hn v hv => h v ⟨n, hn, hv⟩
  · rintro h v ⟨n, hn, hv⟩
    exact h n hn v hv

@[simp] theorem admitted_absent (p : Place) : Admitted p .absent :=
  fun _ h => absurd h List.not_mem_nil

theorem admitted_cons {n : Node} {rest : List (Place × Node)} (h : n.lowered p = (p, n) :: rest) :
    Admitted p n ↔ p.Admits n ∧ ∀ v ∈ rest, v.1.Admits v.2 := by
  rw [Admitted, h, List.forall_mem_cons]

theorem Admitted.admits {n : Node} (h : Admitted p n) (hn : n.isAbsent = false) : p.Admits n := by
  have hfirst : ∃ rest, n.lowered p = (p, n) :: rest := by
    cases n with
    | absent => cases hn
    | _ => exact ⟨_, rfl⟩
  obtain ⟨rest, hrest⟩ := hfirst
  exact ((admitted_cons hrest).mp h).1

/-- A payload can keep a node from being admitted, whatever its kind is. -/
theorem not_admitted {n : Node} (hn : n.isAbsent = false)
    (hpayload : ∀ kind, p.admits kind n.payloadKind? = false) : ¬Admitted p n := by
  intro h
  obtain ⟨tag, htag⟩ := exists_tag? hn
  have hadmits := h.admits hn
  rw [Place.Admits, htag, Option.any_some, hpayload] at hadmits
  cases hadmits

/-- What has the payload of an expression is lowered with its parts, as an expression or as a
statement. -/
theorem lowered_expression {n : Node} (hp : p = .expression ∨ p = .statement)
    (hpayload : n.payloadKind?.any Kind.isExpr = true) :
    n.lowered p = (p, n) :: loweredAll .expression n.parts := by
  cases n with
  | binary tag op left right =>
    have hparts : loweredAll .expression [left, right] =
        left.lowered .expression ++ right.lowered .expression := by
      rw [loweredAll_eq, List.flatMap_cons, List.flatMap_singleton]
    rcases hp with rfl | rfl <;> exact congrArg _ hparts.symm
  | call | number | boolean | ident | string => rcases hp with rfl | rfl <;> rfl
  | _ => cases hpayload

/-- What has the payload of an expression is admitted as one by its kind. -/
theorem admits_expression {n : Node} {tag : Tag} (hp : p = .expression ∨ p = .statement)
    (htag : n.tag? = some tag) (hpayload : n.payloadKind?.any Kind.isExpr = true) :
    p.Admits n ↔ tag.kind.isExpr = true := by
  have hadmits : p.admits tag.kind n.payloadKind? =
      (tag.kind.isExpr && n.payloadKind?.any Kind.isExpr) := by
    rcases hp with rfl | rfl
    · rfl
    · cases n with
      | binary | call | number | boolean | ident | string => rfl
      | _ => cases hpayload
  rw [Place.Admits, htag, Option.any_some, hadmits, hpayload, Bool.and_true]

theorem admitted_expression {n : Node} {tag : Tag} (hp : p = .expression ∨ p = .statement)
    (htag : n.tag? = some tag) (hpayload : n.payloadKind?.any Kind.isExpr = true) :
    Admitted p n ↔ tag.kind.isExpr = true ∧ ∀ m ∈ n.parts, Admitted .expression m := by
  rw [admitted_cons (lowered_expression hp hpayload), admits_expression hp htag hpayload,
    forall_loweredAll]

theorem Admitted.payload {n : Node} (h : Admitted .expression n) (hn : n.isAbsent = false) :
    n.payloadKind?.any Kind.isExpr = true := by
  obtain ⟨tag, htag⟩ := exists_tag? hn
  have hadmits := h.admits hn
  rw [Place.Admits, htag, Option.any_some] at hadmits
  exact (Bool.and_eq_true_iff.mp hadmits).2

/-- A node whose payload goes with the place is admitted by its kind. -/
theorem admits_iff {n : Node} {tag : Tag} {kind : Kind} (htag : n.tag? = some tag)
    (h : ∀ k, p.admits k n.payloadKind? = (k == kind)) : p.Admits n ↔ tag.kind = kind := by
  rw [Place.Admits, htag, Option.any_some, h, beq_iff_eq]

theorem admitted_target (tag : Tag) (name : String) :
    Admitted .target (.ident tag name) ↔ tag.kind = .identExpr :=
  (admitted_cons rfl).trans ((and_iff_left (List.forall_mem_nil _)).trans
    (admits_iff rfl fun _ => Bool.and_true _))

/-! Statements. -/

@[simp] theorem admitted_var (tag : Tag) (name : String) (type : ValueType) (init : Node) :
    Admitted .statement (.var tag name type init) ↔ Admitted .expression init :=
  (admitted_cons rfl).trans (and_iff_right rfl)

@[simp] theorem admitted_ret (tag : Tag) (expr : Node) :
    Admitted .statement (.ret tag expr) ↔ Admitted .expression expr :=
  (admitted_cons rfl).trans (and_iff_right rfl)

@[simp] theorem admitted_print (tag : Tag) (expr : Node) :
    Admitted .statement (.print tag expr) ↔ Admitted .expression expr :=
  (admitted_cons rfl).trans (and_iff_right rfl)

@[simp] theorem admitted_scan (tag : Tag) (target : Node) :
    Admitted .statement (.scan tag target) ↔ Admitted .target target :=
  (admitted_cons rfl).trans (and_iff_right rfl)

@[simp] theorem admitted_ifThen (tag : Tag) (cond body : Node) :
    Admitted .statement (.ifThen tag cond body) ↔
      Admitted .expression cond ∧ Admitted .body body :=
  (admitted_cons rfl).trans ((and_iff_right rfl).trans List.forall_mem_append)

@[simp] theorem admitted_loop (tag : Tag) (cond body : Node) :
    Admitted .statement (.loop tag cond body) ↔
      Admitted .expression cond ∧ Admitted .body body :=
  (admitted_cons rfl).trans ((and_iff_right rfl).trans List.forall_mem_append)

theorem admitted_compound {tag : Tag} {stmts : List Node} (hp : p = .body ∨ p = .statement) :
    Admitted p (.compound tag stmts) ↔
      tag.kind = .compoundStmt ∧ ∀ n ∈ stmts, Admitted .statement n := by
  rw [← forall_loweredAll]
  rcases hp with rfl | rfl
  · exact (admitted_cons rfl).trans
      (and_congr_left fun _ => admits_iff rfl fun _ => Bool.and_true _)
  · exact (admitted_cons rfl).trans (and_congr_left fun _ => admits_iff rfl fun _ => rfl)

/-! Declarations and the program. -/

theorem admitted_parameter {n : Node} {tag : Tag} (htag : n.tag? = some tag) :
    Admitted .parameter n ↔ tag.kind = .paramDecl := by
  have hlowered : n.lowered .parameter = [(.parameter, n)] := by
    cases n with
    | absent => cases htag
    | _ => rfl
  exact (admitted_cons hlowered).trans ((and_iff_left (List.forall_mem_nil _)).trans
    (admits_iff htag fun _ => rfl))

@[simp] theorem admitted_function (tag : Tag) (name : String) (params : List Node)
    (result : ValueType) (body : Node) :
    Admitted .declaration (.function tag name params result body) ↔
      tag.kind = .functionDecl ∧ (∀ n ∈ params, Admitted .parameter n) ∧ Admitted .body body := by
  have hlowered : (function tag name params result body).lowered .declaration =
      (.declaration, .function tag name params result body) ::
        (loweredAll .parameter params ++ body.lowered .body) := rfl
  rw [admitted_cons hlowered, admits_iff rfl fun _ => rfl, List.forall_mem_append,
    forall_loweredAll]
  rfl

theorem admitted_decl_var (tag : Tag) (name : String) (type : ValueType) (init : Node) :
    Admitted .declaration (.var tag name type init) ↔
      tag.kind = .varDecl ∧ Admitted .expression init :=
  (admitted_cons rfl).trans (and_congr_left fun _ => admits_iff rfl fun _ => rfl)

@[simp] theorem admitted_program (tag : Tag) (decls : List Node) :
    Admitted .program (.program tag decls) ↔
      tag.kind = .program ∧ ∀ n ∈ decls, Admitted .declaration n := by
  rw [← forall_loweredAll]
  exact (admitted_cons rfl).trans (and_congr_left fun _ => admits_iff rfl fun _ => Bool.and_true _)

end Admitted

end Node

end Isel.Syntax

namespace Isel.Select

open Isel.Flow Isel.Syntax Isel.Proofs
open Isel.Syntax.Node (Admitted)

/-! ## What is lowered is admitted -/

/-- The computation ends well only if the condition holds. -/
structure Requires {α : Type} (x : Selection α) (P : Prop) : Prop where
  holds : ∀ s a s', x s = .ok a s' → P

section Requires

variable {α β : Type} {P Q : Prop} {su : Setup}

theorem requires_of {P : Prop} (h : P) (x : Selection α) : Requires x P := ⟨fun _ _ _ _ => h⟩

theorem Requires.mono {x : Selection α} (hx : Requires x P) (h : P → Q) : Requires x Q :=
  ⟨fun s a s' hrun => h (hx.holds s a s' hrun)⟩

theorem Requires.bind {x : Selection α} {f : α → Selection β} (hx : Requires x P)
    (hf : ∀ a, Requires (f a) Q) : Requires (x >>= f) (P ∧ Q) := by
  refine ⟨fun s b s' h => ?_⟩
  rw [bind_eq_ok] at h
  obtain ⟨a, s₁, hrun, h⟩ := h
  exact ⟨hx.holds s a s₁ hrun, (hf a).holds s₁ b s' h⟩

theorem Requires.first {x : Selection α} (hx : Requires x P) (f : α → Selection β) :
    Requires (x >>= f) P := (hx.bind fun a => requires_of trivial (f a)).mono And.left

theorem Requires.second {f : α → Selection β} (hf : ∀ a, Requires (f a) Q) (x : Selection α) :
    Requires (x >>= f) Q := ((requires_of trivial x).bind hf).mono And.right

theorem Requires.ite {c : Prop} [Decidable c] {x y : Selection α} (hx : c → Requires x P)
    (hy : ¬c → Requires y P) : Requires (if c then x else y) P := by
  split
  · next h => exact hx h
  · next h => exact hy h

theorem requires_throw (e : Stop) (P : Prop) : Requires (throw e : Selection α) P :=
  ⟨fun _ _ _ h => nomatch h⟩

theorem requires_fail (pos : Source.Position) (cause : Cause) (P : Prop) :
    Requires (fail pos cause : Selection α) P := requires_throw _ P

theorem requires_claimSlot (tag : Tag) : Requires (claimSlot tag) (tag.kind.isExpr = true) :=
  .ite (fun h => requires_of h _) fun _ => requires_fail ..

theorem requires_selectArgs {pt : Point} : ∀ ns : List Node,
    (∀ n ∈ ns, Requires (selectExpr su pt n) (Admitted .expression n)) →
      Requires (selectArgs su pt ns) (∀ n ∈ ns, Admitted .expression n) := by
  intro ns
  induction ns with
  | nil => exact fun _ => requires_of (by simp) _
  | cons n ns ih =>
    intro h
    rw [List.forall_mem_cons] at h
    rw [selectArgs]
    exact (h.1.bind fun _ => (ih h.2).first _).mono List.forall_mem_cons.mpr

/-- **An expression that is lowered is admitted.** -/
theorem requires_selectExpr (pt : Point) : ∀ n : Node,
    Requires (selectExpr su pt n) (Admitted .expression n) := by
  intro n
  induction n using Node.parts_induction with
  | _ n ih _ =>
  cases n with
  | absent => exact requires_of (Node.admitted_absent _) _
  | number tag | boolean tag | ident tag | string tag =>
    rw [selectExpr, Node.admitted_expression (.inl rfl) rfl rfl]
    exact ((requires_claimSlot tag).first _).mono fun hkind => ⟨hkind, by simp [Node.parts]⟩
  | binary tag op left right =>
    rw [selectExpr, Node.admitted_expression (.inl rfl) rfl rfl]
    have hleft := ih left (by simp [Node.parts])
    have hright := ih right (by simp [Node.parts])
    refine ((requires_claimSlot tag).bind fun _ => hleft.bind fun _ => hright.first _).mono ?_
    rintro ⟨hkind, hl, hr⟩
    exact ⟨hkind, by simp [Node.parts, hl, hr]⟩
  | call tag callee args =>
    rw [selectExpr, Node.admitted_expression (.inl rfl) rfl rfl]
    have hargs := requires_selectArgs args ih
    exact (requires_claimSlot tag).bind fun _ => .second (fun _ => hargs.first _) _
  | bare | program | function | param | var | compound | ifThen | print | ret | scan | loop =>
    rw [selectExpr]
    exact .second (fun _ => requires_fail ..) _

theorem requires_selectVar (pt : Point) (tag : Tag) (name : String) (init : Node) :
    Requires (selectVar su pt tag name init) (Admitted .expression init) := by
  by_cases hinit : init = .absent
  · subst hinit
    exact requires_of (Node.admitted_absent _) _
  · rw [selectVar_of_ne hinit]
    exact (requires_selectExpr pt init).first _

theorem requires_scannedSlot (tag : Tag) (target : Node) :
    Requires (scannedSlot su tag target) (Admitted .target target) := by
  rw [scannedSlot]
  split
  · exact requires_fail ..
  next t ht =>
    refine .ite (fun _ => requires_fail ..) fun hkind => ?_
    split
    · cases ht
      refine requires_of ?_ _
      simpa [Admitted, Node.lowered, Place.Admits, Node.tag?, Place.admits, Node.payloadKind?]
        using hkind
    · exact requires_fail ..

def StmtRequires (su : Setup) (n : Node) : Prop :=
  ∀ r, Requires (selectStmt su n r) (Admitted .statement n)

theorem requires_openBody (tag : Tag) (r : BlockRef) :
    Requires (openBody tag r) (tag.kind = .compoundStmt) :=
  .ite (fun h => requires_of h _) fun _ => requires_fail ..

theorem requires_selectStmts : ∀ ns : List Node, (∀ n ∈ ns, StmtRequires su n) →
    ∀ (returned : Bool) (r : BlockRef),
      Requires (selectStmts su returned ns r) (∀ n ∈ ns, Admitted .statement n) := by
  intro ns
  induction ns with
  | nil => exact fun _ _ _ => requires_of (by simp) _
  | cons n ns ih =>
    intro h returned r
    rw [List.forall_mem_cons] at h
    have hrest : ∀ again, Requires (selectStmt su n r >>= fun q => selectStmts su again ns q)
        (∀ m ∈ n :: ns, Admitted .statement m) :=
      fun again => ((h.1 r).bind fun q => ih h.2 again q).mono List.forall_mem_cons.mpr
    rw [selectStmts]
    exact .ite (fun _ => .second (fun _ => hrest _) _) fun _ => hrest _

theorem requires_selectBody {body : Node} (hparts : ∀ n ∈ body.parts, StmtRequires su n)
    (r : BlockRef) : Requires (selectBody su body r) (Admitted .body body) := by
  cases body with
  | absent => exact requires_of (Node.admitted_absent _) _
  | compound tag stmts =>
    rw [selectBody, Node.admitted_compound (.inl rfl)]
    exact (requires_openBody tag r).bind fun first =>
      (requires_selectStmts stmts hparts false first).first _
  | _ =>
    simp only [selectBody, Node.tag?]
    exact .second (fun _ => requires_fail ..) _

theorem requires_selectExprStmt (n : Node) (r : BlockRef) :
    Requires (selectExprStmt su n r) (Admitted .expression n) := by
  rw [selectExprStmt]
  split
  · exact requires_throw ..
  · refine .ite (fun _ => requires_fail ..) fun _ => ?_
    have hexpr : Requires (do let _ ← selectExpr su (.block r) n) (Admitted .expression n) :=
      (requires_selectExpr (.block r) n).first _
    exact .ite (fun _ => .second (fun _ => hexpr) _) fun _ => hexpr

/-- **A statement that is lowered is admitted.** -/
theorem requires_selectStmt : ∀ n : Node, StmtRequires su n := by
  intro n
  induction n using Node.parts_induction with
  | _ n ih ih₂ =>
  intro r
  cases n with
  | var tag name type init =>
    rw [selectStmt, Node.admitted_var]
    exact (requires_selectVar ..).first _
  | compound tag stmts =>
    rw [selectStmt, Node.admitted_compound (.inr rfl)]
    exact (requires_openBody tag r).bind fun first => requires_selectStmts stmts ih false first
  | ifThen tag cond body =>
    have hbody := requires_selectBody (ih₂ body (by simp [Node.parts])) r
    rw [selectStmt, Node.admitted_ifThen]
    exact (requires_selectExpr _ cond).bind fun _ => hbody.first _
  | loop tag cond body =>
    have hbody := requires_selectBody (ih₂ body (by simp [Node.parts]))
    rw [selectStmt, Node.admitted_loop]
    exact .second (fun header =>
      (requires_selectExpr _ cond).bind fun _ => (hbody header).first _) _
  | ret tag expr =>
    rw [selectStmt, Node.admitted_ret]
    refine .ite (fun _ => (requires_selectExpr _ expr).first _) fun habsent => ?_
    cases expr with
    | absent => exact requires_of (Node.admitted_absent _) _
    | _ => exact absurd rfl habsent
  | print tag expr =>
    rw [selectStmt, Node.admitted_print]
    exact (requires_selectExpr _ expr).first _
  | scan tag target =>
    rw [selectStmt, Node.admitted_scan]
    exact (requires_scannedSlot tag target).first _
  | absent => exact requires_of (Node.admitted_absent _) _
  | bare | program | function | param =>
    simp only [selectStmt]
    refine ((requires_selectExprStmt _ r).first _).mono fun h => ?_
    cases h.payload rfl
  | number | boolean | ident | string | binary | call =>
    simp only [selectStmt]
    refine ((requires_selectExprStmt _ r).first _).mono fun h => ?_
    rw [Node.admitted_expression (.inl rfl) rfl rfl] at h
    rwa [Node.admitted_expression (.inr rfl) rfl rfl]

theorem requires_selectParams (function : String) : ∀ params : List Node,
    Requires (selectParams function params) (∀ n ∈ params, Admitted .parameter n) := by
  intro params
  induction params with
  | nil => exact requires_of (by simp) _
  | cons n params ih =>
    rw [selectParams]
    split
    · exact requires_throw ..
    next tag htag =>
      refine .ite (fun _ => requires_fail ..) fun hkind => ?_
      refine .second (fun _ => (ih.first _).mono fun h => ?_) _
      rw [List.forall_mem_cons, Node.admitted_parameter htag]
      exact ⟨not_not.mp hkind, h⟩

theorem requires_selectFunction (tag : Tag) (name : String) (params : List Node)
    (result : ValueType) (body : Node) :
    Requires (selectFunction su tag name params result body)
      ((∀ n ∈ params, Admitted .parameter n) ∧ Admitted .body body) := by
  have hbody : ∀ r, Requires (selectBody su body r) (Admitted .body body) :=
    requires_selectBody fun n _ => requires_selectStmt n
  have hend : ∀ r, Requires
      (if body.tag?.any fun t => t.kind == .compoundStmt then do
        let _ ← selectBody su body r
      else fail tag.pos (.noBody name)) (Admitted .body body) :=
    fun r => .ite (fun _ => (hbody r).first _) fun _ => requires_fail ..
  rw [selectFunction_eq]
  refine .second (fun g => ?_) _
  refine .ite (fun _ => ?_) fun hempty => ?_
  · exact (requires_selectParams name params).bind fun _ => .second (fun _ => hend _) _
  · have hparams : params = [] := by simpa using hempty
    exact (hend _).mono fun h => ⟨by simp [hparams], h⟩

theorem requires_selectDecl (n : Node) :
    Requires (selectDecl su n) (Admitted .declaration n) := by
  rw [selectDecl]
  split
  · exact requires_throw ..
  next tag htag =>
    split
    · next hkind =>
      cases htag
      rw [Node.admitted_function]
      exact (requires_selectFunction ..).mono fun h => ⟨hkind, h⟩
    · next hkind =>
      cases htag
      rw [Node.admitted_decl_var]
      exact (requires_selectVar ..).mono fun h => ⟨hkind, h⟩
    all_goals exact requires_fail ..

theorem requires_forM {f : Node → Selection Unit} {p : Place}
    (h : ∀ n, Requires (f n) (Admitted p n)) : ∀ ns : List Node,
    Requires (ns.forM f) (∀ n ∈ ns, Admitted p n) := by
  intro ns
  induction ns with
  | nil => exact requires_of (by simp) _
  | cons n ns ih => exact ((h n).bind fun _ => ih).mono List.forall_mem_cons.mpr

/-- **A program is lowered only if all its nodes are admitted.** -/
theorem requires_selectProgram (root : Node) :
    Requires (selectProgram su root) (Admitted .program root) := by
  rw [selectProgram]
  split
  · exact requires_fail ..
  next tag htag =>
    refine .ite (fun _ => requires_fail ..) fun hkind => ?_
    split
    · cases htag
      rw [Node.admitted_program]
      have hdecls : ∀ ns : List Node,
          Requires (ns.forM (selectDecl su)) (∀ n ∈ ns, Admitted .declaration n) :=
        requires_forM requires_selectDecl
      exact Requires.mono (.ite (fun _ => .second (fun _ => hdecls _) _) fun _ => hdecls _)
        fun h => ⟨not_not.mp hkind, h⟩
    · exact requires_fail ..

end Requires

end Isel.Select
