import Mathlib.Algebra.BigOperators.Group.List.Lemmas
import Isel.Proofs.Kinds
import Isel.Proofs.Routing

/-!
# Who gets a slot, and when

`Node.allotted` lists the nodes that get slots when a tree is lowered, in the order of the slots: an
expression comes before its operands, a variable behind its initializer, and the parameters of a
function before its body.

In an `Orderly` tree, these are the expressions, the initialised variables and the parameters
(`length_allotted`), and the list of a node stands, without a gap, in that of every tree it belongs
to (`infix_allotted`).  Where the tree is admitted and kinds and payloads agree, an expression is
allotted before all nodes of its operands (`Admitted.operand_behind`), and a variable behind all
nodes of its initializer (`Admitted.initializer_before`).
-/

namespace Isel.Syntax.Node

open Isel.Select (ScanFree)

mutual

/-- The labels of the nodes that get slots when the tree is lowered, in the order of the slots. -/
def allotted : Node → List Label
  | .absent | .bare _ | .scan .. => []
  | .program _ ns | .compound _ ns => allottedAll ns
  | .function _ _ params _ body => params.filterMap label? ++ allotted body
  | .param tag _ _ => [tag.label]
  | .var tag _ _ init => allotted init ++ if init.isAbsent then [] else [tag.label]
  | .ifThen _ cond body | .loop _ cond body => allotted cond ++ allotted body
  | .print _ expr | .ret _ expr => allotted expr
  | .binary tag _ left right => tag.label :: (allotted left ++ allotted right)
  | .call tag _ args => tag.label :: allottedAll args
  | .boolean tag _ | .ident tag _ | .number tag _ | .string tag _ => [tag.label]

/-- The labels of the nodes that get slots when nodes are lowered one after the other. -/
def allottedAll : List Node → List Label
  | [] => []
  | n :: rest => allotted n ++ allottedAll rest

end

theorem allottedAll_eq : ∀ ns : List Node, allottedAll ns = ns.flatMap allotted := by
  intro ns
  induction ns with
  | nil => rw [allottedAll]; rfl
  | cons n ns ih => rw [allottedAll, ih, List.flatMap_cons]

/-! ## The nodes that get slots -/

def isExpr (n : Node) : Bool := n.payloadKind?.any Kind.isExpr

def isParam : Node → Bool
  | .param .. => true
  | _ => false

/-- No input is read, and where a parameter should stand there is one. -/
structure Orderly (n : Node) : Prop where
  scanFree : ScanFree n
  params : ∀ tag name params result body, .function tag name params result body ∈ n.nodes →
    ∀ p ∈ params, p.isAbsent = true ∨ p.isParam = true

theorem Orderly.node {n m : Node} (h : Orderly n) (hm : m ∈ n.nodes) : Orderly m :=
  ⟨fun tag target hk => h.scanFree tag target (mem_nodes_trans hk n hm),
    fun tag name params result body hk =>
      h.params tag name params result body (mem_nodes_trans hk n hm)⟩

theorem Orderly.part {n p : Node} (h : Orderly n) (hp : p ∈ n.parts) : Orderly p :=
  ⟨h.scanFree.part hp, fun tag name params result body hm =>
    h.params tag name params result body (mem_nodes_of_part hp hm)⟩

/-- A node gets its slot before its parts get theirs, or behind them. -/
theorem allotted_eq {n : Node} (h : Orderly n) :
    n.allotted = (if n.isExpr || n.isParam then n.label?.toList else []) ++
      n.parts.flatMap allotted ++ if n.isInitialised then n.label?.toList else [] := by
  cases n with
  | function tag name params result body =>
    -- Parameters are lowered by their kinds; only here their payloads matter.
    have hparams := h.params tag name params result body (mem_nodes_self rfl)
    have hflat : params.filterMap label? = params.flatMap allotted := by
      rw [List.filterMap_eq_flatMap_toList]
      refine List.flatMap_congr fun p hp => ?_
      cases p with
      | absent | param => rfl
      | _ => rcases hparams _ hp with hp | hp <;> cases hp
    simp [allotted, isExpr, payloadKind?, Kind.isExpr, isParam, isInitialised, parts, hflat]
  | scan tag target => exact absurd (mem_nodes_self rfl) (h.scanFree tag target)
  | var tag name type init =>
    cases init <;> simp [allotted, isExpr, payloadKind?, Kind.isExpr, isParam, isInitialised, parts,
      isAbsent, label?, tag?]
  | _ =>
    simp [allotted, allottedAll_eq, isExpr, payloadKind?, Kind.isExpr, isParam, isInitialised,
      parts, label?, tag?]

/-- **The slots are those of the expressions, the initialised variables and the parameters.** -/
theorem length_allotted : ∀ n : Node, Orderly n →
    n.allotted.length =
      n.nodes.countP isExpr + n.nodes.countP isInitialised + n.nodes.countP isParam := by
  intro n
  induction n using parts_induction with
  | _ n ih _ =>
  intro h
  have hparts : (n.parts.flatMap allotted).length =
      (n.parts.flatMap nodes).countP isExpr + (n.parts.flatMap nodes).countP isInitialised +
        (n.parts.flatMap nodes).countP isParam := by
    simp only [List.length_flatMap, List.countP_flatMap, ← List.sum_map_add]
    refine congrArg List.sum (List.map_congr_left fun p hp => ?_)
    exact ih p hp (h.part hp)
  rw [allotted_eq h, nodes_eq]
  simp only [List.length_append, List.countP_append, hparts]
  cases n with
  | var tag name type init =>
    cases init <;>
      simp [isExpr, payloadKind?, Kind.isExpr, isParam, isInitialised, isAbsent, label?, tag?] <;>
      omega
  | _ =>
    simp [isExpr, payloadKind?, Kind.isExpr, isParam, isInitialised, isAbsent, label?, tag?] <;>
      omega

/-- What is allotted to a node of a tree stands without a gap in what is allotted to the tree. -/
theorem infix_allotted {m : Node} : ∀ n : Node, Orderly n → m ∈ n.nodes →
    m.allotted <:+: n.allotted := by
  intro n
  induction n using parts_induction with
  | _ n ih _ =>
  intro h hm
  rw [nodes_eq, List.mem_append] at hm
  rcases hm with hm | hm
  · split at hm
    · cases hm
    · rw [List.mem_singleton.mp hm]
  · obtain ⟨p, hp, hm⟩ := List.mem_flatMap.mp hm
    rw [allotted_eq h]
    have hflat : p.allotted <:+: n.parts.flatMap allotted :=
      List.infix_of_mem_flatten (List.mem_map_of_mem hp)
    exact ((ih p hp (h.part hp) hm).trans hflat).trans (List.infix_append ..)

/-! ## Places -/

section Admitted

variable {p : Place} {n : Node}

/-- Where kind and payload agree, the payload decides alone. -/
theorem admits_of_agrees (h : p.Admits n) (ha : n.Agrees) :
    ∃ kind, n.payloadKind? = some kind ∧ p.admits kind (some kind) = true := by
  rw [Place.Admits, Option.any_eq_true] at h
  obtain ⟨tag, htag, h⟩ := h
  rw [Agrees, htag, Option.map_some] at ha
  rw [← ha] at h
  exact ⟨tag.kind, ha.symm, h⟩

theorem Admitted.admits_payload (h : Admitted p n) (ha : n.Agrees) {kind : Kind}
    (hkind : n.payloadKind? = some kind) : p.admits kind (some kind) = true := by
  have hn : n.isAbsent = false := by
    cases n with
    | absent => cases hkind
    | _ => rfl
  obtain ⟨_, hkind', hadmits⟩ := admits_of_agrees (h.admits hn) ha
  rw [hkind] at hkind'
  cases hkind'
  exact hadmits

theorem Admitted.operand (h : Admitted p n) (ha : n.Agrees) (hexpr : n.isExpr = true) {c : Node}
    (hc : c ∈ n.parts) : Admitted .expression c := by
  have hparts : ∀ {kind tag}, n.payloadKind? = some kind → n.tag? = some tag →
      kind = .binaryExpr ∨ kind = .callExpr → Admitted .expression c := by
    intro kind tag hkind htag hk
    have hadmits := h.admits_payload ha hkind
    have hp : p = .expression ∨ p = .statement := by
      cases p with
      | expression => exact .inl rfl
      | statement => exact .inr rfl
      | _ => rcases hk with rfl | rfl <;> cases hadmits
    exact ((admitted_expression hp htag hexpr).mp h).2 c hc
  cases n with
  | binary => exact hparts rfl rfl (.inl rfl)
  | call => exact hparts rfl rfl (.inr rfl)
  | boolean | ident | number | string => cases hc
  | _ => cases hexpr

theorem Admitted.initializer {tag : Tag} {name : String} {type : ValueType} {init : Node}
    (h : Admitted p (.var tag name type init)) (ha : (var tag name type init).Agrees) :
    Admitted .expression init := by
  have hadmits := h.admits_payload ha rfl
  cases p with
  | declaration => exact ((admitted_decl_var ..).mp h).2
  | statement => exact (admitted_var ..).mp h
  | _ => cases hadmits

/-- The parameters of a function are lowered as parameters, and its body as a body. -/
theorem Admitted.function {tag : Tag} {name : String} {params : List Node} {result : ValueType}
    {body : Node} (h : Admitted p (.function tag name params result body))
    (ha : (function tag name params result body).Agrees) :
    (∀ c ∈ params, Admitted .parameter c) ∧ Admitted .body body := by
  have hadmits := h.admits_payload ha rfl
  cases p with
  | declaration => exact ((admitted_function ..).mp h).2
  | _ => cases hadmits

/-- Whatever belongs to a node that is lowered is lowered with it. -/
theorem Admitted.part (h : Admitted p n) (ha : n.Agrees) {c : Node} (hc : c ∈ n.parts) :
    ∃ q, Admitted q c := by
  cases n with
  | program tag decls =>
    have hadmits := h.admits_payload ha rfl
    cases p with
    | program => exact ⟨_, ((admitted_program ..).mp h).2 c hc⟩
    | _ => cases hadmits
  | function tag name params result body =>
    obtain ⟨hparams, hbody⟩ := h.function ha
    rcases List.mem_append.mp hc with hc | hc
    · exact ⟨_, hparams c hc⟩
    · rw [List.mem_singleton.mp hc]
      exact ⟨_, hbody⟩
  | var tag name type init =>
    rw [List.mem_singleton.mp hc]
    exact ⟨_, h.initializer ha⟩
  | binary | call => exact ⟨_, h.operand ha rfl hc⟩
  | compound tag stmts =>
    have hadmits := h.admits_payload ha rfl
    cases p with
    | body => exact ⟨_, ((admitted_compound (.inl rfl)).mp h).2 c hc⟩
    | statement => exact ⟨_, ((admitted_compound (.inr rfl)).mp h).2 c hc⟩
    | _ => cases hadmits
  | ifThen tag cond body | loop tag cond body =>
    have hadmits := h.admits_payload ha rfl
    cases p with
    | statement =>
      have hboth : Admitted .expression cond ∧ Admitted .body body := by simpa using h
      simp only [parts, List.mem_cons, List.not_mem_nil, or_false] at hc
      rcases hc with rfl | rfl
      · exact ⟨_, hboth.1⟩
      · exact ⟨_, hboth.2⟩
    | _ => cases hadmits
  | print tag expr | ret tag expr =>
    have hadmits := h.admits_payload ha rfl
    cases p with
    | statement =>
      rw [List.mem_singleton.mp hc]
      exact ⟨.expression, by simpa using h⟩
    | _ => cases hadmits
  | scan tag target =>
    have hadmits := h.admits_payload ha rfl
    cases p with
    | statement =>
      rw [List.mem_singleton.mp hc]
      exact ⟨.target, by simpa using h⟩
    | _ => cases hadmits
  | _ => cases hc

/-- **All nodes of a tree that is lowered are lowered**, if kinds and payloads agree. -/
theorem Admitted.node : ∀ (n : Node) (p : Place), Admitted p n → (∀ m ∈ n.nodes, m.Agrees) →
    ∀ m ∈ n.nodes, ∃ q, Admitted q m := by
  intro n
  induction n using parts_induction with
  | _ n ih _ =>
  intro p h ha m hm
  cases hn : n.isAbsent with
  | true =>
    cases n with
    | absent => cases hm
    | _ => cases hn
  | false =>
    rw [nodes_eq, hn] at hm
    rcases List.mem_append.mp hm with hm | hm
    · rw [List.mem_singleton.mp hm]
      exact ⟨p, h⟩
    · obtain ⟨c, hc, hm⟩ := List.mem_flatMap.mp hm
      obtain ⟨q, hq⟩ := h.part (ha n (mem_nodes_self hn)) hc
      exact ih c hc q hq (fun m hm => ha m (mem_nodes_of_part hc hm)) m hm

/-- In an expression all nodes are allotted, each before those below it. -/
theorem allotted_of_admitted : ∀ n : Node, Admitted .expression n → n.allotted = n.labels := by
  intro n
  induction n using parts_induction with
  | _ n ih _ =>
  intro h
  have hparts : n.isAbsent = false → n.parts.flatMap allotted = n.parts.flatMap labels := by
    intro hn
    obtain ⟨tag, htag⟩ := exists_tag? hn
    have hadmitted := (admitted_expression (.inl rfl) htag (h.payload hn)).mp h
    exact List.flatMap_congr fun c hc => ih c hc (hadmitted.2 c hc)
  rw [labels_eq]
  cases n with
  | absent => rfl
  | binary | call | boolean | ident | number | string =>
    rw [← hparts rfl]
    simp [allotted, allottedAll_eq, parts, label?, tag?]
  | _ => cases h.payload rfl

/-- A program that is lowered is orderly, if it reads no input and kinds and payloads agree. -/
theorem Admitted.orderly (h : Admitted p n) (ha : ∀ m ∈ n.nodes, m.Agrees) (hscan : ScanFree n) :
    Orderly n := by
  refine ⟨hscan, fun tag name params result body hm c hc => ?_⟩
  obtain ⟨q, hq⟩ := Admitted.node n p h ha _ hm
  have hparam := (hq.function (ha _ hm)).1 c hc
  cases hn : c.isAbsent with
  | true => exact .inl rfl
  | false =>
    have hmem : c ∈ (Node.function tag name params result body).nodes :=
      mem_nodes_of_part (List.mem_append_left _ hc) (mem_nodes_self hn)
    have hagrees := ha c (mem_nodes_trans hmem n hm)
    obtain ⟨kind, hkind, hadmits⟩ := admits_of_agrees (hparam.admits hn) hagrees
    right
    cases c with
    | param => rfl
    | absent => cases hn
    | bare => cases hkind
    | _ =>
      cases hkind
      cases hadmits

variable {c m : Node} {l k : Label}

theorem Admitted.label_mem (h : Admitted .expression c) (hm : m ∈ c.nodes)
    (hk : m.label? = some k) : k ∈ c.allotted := by
  rw [allotted_of_admitted c h]
  exact mem_labels.mpr ⟨m, hm, hk⟩

/-- An expression is allotted before all nodes of its operands. -/
theorem Admitted.operand_behind (h : Admitted p n) (ha : ∀ m ∈ n.nodes, m.Agrees)
    (hscan : ScanFree n) {e : Node} (he : e ∈ n.nodes) (hexpr : e.isExpr = true)
    (hc : c ∈ e.parts) (hm : m ∈ c.nodes) (hl : e.label? = some l) (hk : m.label? = some k) :
    List.Sublist [l, k] n.allotted := by
  have horderly := h.orderly ha hscan
  obtain ⟨q, hq⟩ := Admitted.node n p h ha e he
  have hmem : k ∈ e.parts.flatMap allotted :=
    List.mem_flatMap.mpr ⟨c, hc, (hq.operand (ha e he) hexpr hc).label_mem hm hk⟩
  refine List.Sublist.trans ?_ (infix_allotted n horderly he).sublist
  rw [allotted_eq (horderly.node he), hexpr, hl]
  exact ((List.singleton_sublist.mpr hmem).cons_cons l).trans (List.sublist_append_left ..)

/-- A variable is allotted behind all nodes of its initializer. -/
theorem Admitted.initializer_before (h : Admitted p n) (ha : ∀ m ∈ n.nodes, m.Agrees)
    (hscan : ScanFree n) {tag : Tag} {name : String} {type : ValueType} {init : Node}
    (hv : .var tag name type init ∈ n.nodes) (hm : m ∈ init.nodes) (hk : m.label? = some k) :
    List.Sublist [k, tag.label] n.allotted := by
  obtain ⟨q, hq⟩ := Admitted.node n p h ha _ hv
  have hmem := (hq.initializer (ha _ hv)).label_mem hm hk
  refine List.Sublist.trans ?_ (infix_allotted n (h.orderly ha hscan) hv).sublist
  have hinit : init.isAbsent = false := by
    cases init with
    | absent => cases hm
    | _ => rfl
  rw [allotted, hinit]
  exact (List.singleton_sublist.mpr hmem).append (List.Sublist.refl [tag.label])

end Admitted

end Isel.Syntax.Node
