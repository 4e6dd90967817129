import Isel.Proofs.Lexical

/-!
# Lexical scoping

A program is lexically scoped if no scope declares a name twice, no variable below
the program scope takes the name of one in it, every identifier shows a variable and
every callee a function (`Lexical`).  What a name shows is said by `Env.Shows`: a
symbol of the innermost open scope that has the name.

`resolveProgram_lexical` says that resolution accepts exactly these programs and
binds every identifier to the declaration it shows.
-/

namespace Isel.Scope

open Isel.Syntax Isel.Proofs

/-! ## What a name shows -/

/-- The symbol stands for the name in the innermost open scope that has the name. -/
def Env.Shows (env : Env) (name : String) (symbol : Symbol) : Prop :=
  ∃ inner scope outer, env.frame :: env.outer = inner ++ scope :: outer ∧
    (∀ f ∈ inner, ∀ x ∈ f, x.name ≠ name) ∧ symbol ∈ scope ∧ symbol.name = name

/-- No open scope has a name twice. -/
def Env.Distinct (env : Env) : Prop := ∀ f ∈ env.frame :: env.outer, (f.map Symbol.name).Nodup

theorem Frame.find?_eq_none {f : Frame} {name : String} :
    f.find? name = none ↔ ∀ x ∈ f, x.name ≠ name := by
  simp [Frame.find?, List.find?_eq_none]

theorem Frame.find?_eq_some {f : Frame} {name : String} {symbol : Symbol}
    (hd : (f.map Symbol.name).Nodup) :
    f.find? name = some symbol ↔ symbol ∈ f ∧ symbol.name = name := by
  constructor
  · intro h
    exact ⟨List.mem_of_find?_eq_some h, by simpa using List.find?_some h⟩
  · rintro ⟨hmem, rfl⟩
    cases hf : f.find? symbol.name with
    | none => exact absurd rfl (Frame.find?_eq_none.mp hf symbol hmem)
    | some other =>
      have hother : other.name = symbol.name := by simpa using List.find?_some hf
      rw [List.inj_on_of_nodup_map hd (List.mem_of_find?_eq_some hf) hmem hother]

theorem Env.shows_of_find? {env : Env} {name : String} {symbol : Symbol}
    (h : env.find? name = some symbol) : env.Shows name symbol := by
  obtain ⟨inner, scope, outer, hsplit, hfind, hnone⟩ := List.findSome?_eq_some_iff.mp h
  exact ⟨inner, scope, outer, hsplit, fun f hf => Frame.find?_eq_none.mp (hnone f hf),
    List.mem_of_find?_eq_some hfind, by simpa using List.find?_some hfind⟩

/-- Where no scope has a name twice, a name shows what a search from the inside finds. -/
theorem Env.shows_iff {env : Env} (hd : env.Distinct) {name : String} {symbol : Symbol} :
    env.Shows name symbol ↔ env.find? name = some symbol := by
  constructor
  · rintro ⟨inner, scope, outer, hsplit, hnone, hmem, hname⟩
    refine List.findSome?_eq_some_iff.mpr ⟨inner, scope, outer, hsplit, ?_, ?_⟩
    · exact (Frame.find?_eq_some (hd scope (by rw [hsplit]; simp))).mpr ⟨hmem, hname⟩
    · exact fun f hf => Frame.find?_eq_none.mpr (hnone f hf)
  · exact Env.shows_of_find?

theorem Env.distinct_enter {env : Env} (hd : env.Distinct) {frame : Frame}
    (hf : (frame.map Symbol.name).Nodup) : (env.enter frame).Distinct :=
  List.forall_mem_cons.mpr ⟨hf, hd⟩

theorem Env.distinct_extend {env : Env} (hd : env.Distinct) {symbols : List Symbol}
    (h : ((env.extend symbols).frame.map Symbol.name).Nodup) : (env.extend symbols).Distinct := by
  rw [Env.Distinct, Env.extend_outer]
  exact List.forall_mem_cons.mpr ⟨h, (List.forall_mem_cons.mp hd).2⟩

theorem Env.distinct_of_extend {env : Env} {xs : List Symbol}
    (h : ((env.extend xs).frame.map Symbol.name).Nodup) : (env.frame.map Symbol.name).Nodup := by
  rw [Env.extend_frame, List.map_append] at h
  exact h.of_append_right

/-! ## The names of a scope -/

/-- The names that are declared in the scope that a node opens, in source order. -/
def ownNames : Node → List String
  | .program _ decls => (declaredAll decls).map Symbol.name
  | .function _ _ params _ (.compound _ stmts) =>
    (paramSymbols params ++ declaredAll stmts).map Symbol.name
  | .compound _ stmts => (declaredAll stmts).map Symbol.name
  | _ => []

/-- Of the functions in a tree, the bodies are compounds and the parameters are
parameters. -/
def FunctionsFormed (n : Node) : Prop :=
  ∀ tag name params result body, .function tag name params result body ∈ n.nodes →
    (∃ inner stmts, body = .compound inner stmts) ∧
      ∀ p ∈ params, ∃ ptag pname type, p = .param ptag pname type

theorem FunctionsFormed.part {n p : Node} (h : FunctionsFormed n) (hp : p ∈ n.parts) :
    FunctionsFormed p :=
  fun tag name params result body hm =>
    h tag name params result body (Node.mem_nodes_of_part hp hm)

/-- The part of `Site.Ok` that says that no scope has a name twice. -/
def Site.Fresh (s : Site) : Prop :=
  match s.node with
  | .var _ name _ init => name ∉ (s.env.extend (declared init)).frame.map Symbol.name
  | .function _ _ params _ _ => ((paramSymbols params).map Symbol.name).Nodup
  | _ => True

/-- The names in the innermost scope differ. -/
def Env.FrameDistinct (env : Env) : Prop := (env.frame.map Symbol.name).Nodup

/-- What `Site.Fresh` at all places of a tree comes to. -/
def FreshMeaning (n : Node) : Prop :=
  ∀ env : Env, env.Distinct →
    ((∀ s ∈ sites env n, s.Fresh) ↔
      (env.extend (declared n)).FrameDistinct ∧ ∀ m ∈ n.nodes, (ownNames m).Nodup)

theorem freshMeaning_all : ∀ ns : List Node, (∀ n ∈ ns, FreshMeaning n) →
    ∀ env : Env, env.Distinct →
      ((∀ s ∈ sitesAll env ns, s.Fresh) ↔
        (env.extend (declaredAll ns)).FrameDistinct ∧
          ∀ m ∈ ns.flatMap Node.nodes, (ownNames m).Nodup) := by
  intro ns
  induction ns with
  | nil =>
    intro _ env hd
    have hframe : env.FrameDistinct := hd env.frame (by simp)
    simpa [sitesAll, declaredAll] using hframe
  | cons n ns ih =>
    intro h env hd
    have hn := h n (by simp) env hd
    have hns := fun hd' => ih (fun m hm => h m (by simp [hm])) (env.extend (declared n)) hd'
    rw [sitesAll, declaredAll, Env.extend_append, List.forall_mem_append, List.flatMap_cons,
      List.forall_mem_append, hn]
    constructor
    · rintro ⟨⟨hframe, hown⟩, hrest⟩
      obtain ⟨hframe', hown'⟩ := (hns (Env.distinct_extend hd hframe)).mp hrest
      exact ⟨hframe', hown, hown'⟩
    · rintro ⟨hframe', hown, hown'⟩
      have hframe := Env.distinct_of_extend hframe'
      exact ⟨⟨hframe, hown⟩, (hns (Env.distinct_extend hd hframe)).mpr ⟨hframe', hown'⟩⟩

theorem nodup_names_reverse {x y : List Symbol} :
    ((y.reverse ++ x.reverse).map Symbol.name).Nodup ↔ ((x ++ y).map Symbol.name).Nodup := by
  rw [← List.reverse_append, List.map_reverse, List.nodup_reverse]

theorem ownNames_plain {n : Node} (h : isPlain n = true) {env : Env}
    (hdist : (env.extend (declaredAll n.parts)).FrameDistinct) : (ownNames n).Nodup := by
  rw [Env.FrameDistinct, Env.extend_frame, List.map_append, List.map_reverse] at hdist
  cases n with
  | program tag decls => exact List.nodup_reverse.mp hdist.of_append_left
  | absent | var | function | compound => simp [isPlain] at h
  | _ => exact List.nodup_nil

theorem fresh_plain {n : Node} (h : isPlain n = true) (env : Env) : Site.Fresh ⟨n, env⟩ := by
  cases n <;> trivial

section Meaning

variable {tag inner : Tag} {name : String} {params stmts : List Node} {result : ValueType}

/-- The scope of a function holds its parameters and the variables of its body. -/
theorem function_fresh (hparams : ∀ p ∈ params, ∃ ptag pname type, p = .param ptag pname type)
    (hstmts : ∀ s ∈ stmts, FreshMeaning s) :
    FreshMeaning (.function tag name params result (.compound inner stmts)) := by
  intro env hd
  have hframe : env.FrameDistinct := hd env.frame (by simp)
  have hleaf : ∀ m ∈ params.flatMap Node.nodes, (ownNames m).Nodup := by
    intro m hm
    obtain ⟨p, hp, hm⟩ := List.mem_flatMap.mp hm
    obtain ⟨ptag, pname, type, rfl⟩ := hparams p hp
    simp only [Node.nodes, Node.walk, List.mem_singleton] at hm
    subst hm
    exact List.nodup_nil
  have hinner :
      ((env.enter (paramSymbols params).reverse).extend (declaredAll stmts)).FrameDistinct ↔
        ((paramSymbols params ++ declaredAll stmts).map Symbol.name).Nodup := by
    rw [Env.FrameDistinct, Env.extend_frame]
    exact nodup_names_reverse
  have henter : ((paramSymbols params).map Symbol.name).Nodup →
      (env.enter (paramSymbols params).reverse).Distinct := fun hnd =>
    Env.distinct_enter hd (by rwa [List.map_reverse, List.nodup_reverse])
  have hall := fun hnd => freshMeaning_all stmts hstmts _ (henter hnd)
  rw [sites, declared, Env.extend_nil, List.forall_mem_cons, Node.nodes_eq,
    Node.parts, List.flatMap_append, List.flatMap_singleton, Node.nodes_eq (.compound inner stmts)]
  simp only [Node.isAbsent, Bool.false_eq_true, if_false, List.forall_mem_append,
    List.forall_mem_singleton, ownNames]
  constructor
  · rintro ⟨hnd, hfresh⟩
    obtain ⟨hdist, hown⟩ := (hall hnd).mp hfresh
    have hself := hinner.mp hdist
    rw [List.map_append] at hself ⊢
    exact ⟨hframe, hself, hleaf, hself.of_append_right, hown⟩
  · rintro ⟨-, hself, -, -, hown⟩
    have hnd : ((paramSymbols params).map Symbol.name).Nodup := by
      rw [List.map_append] at hself
      exact hself.of_append_left
    exact ⟨hnd, (hall hnd).mpr ⟨hinner.mpr hself, hown⟩⟩

theorem var_fresh {type : ValueType} {init : Node} (hinit : FreshMeaning init) :
    FreshMeaning (.var tag name type init) := by
  intro env hd
  have hnew : ((env.extend (declared init)).extend [varSymbol tag name]).FrameDistinct ↔
      name ∉ (env.extend (declared init)).frame.map Symbol.name ∧
        (env.extend (declared init)).FrameDistinct := by
    rw [Env.FrameDistinct, Env.extend_frame]
    exact List.nodup_cons
  rw [sites, declared, List.forall_mem_cons, hinit env hd, Env.extend_append, hnew, and_assoc,
    Node.nodes_eq (.var tag name type init)]
  simp only [Node.isAbsent, Bool.false_eq_true, if_false, List.forall_mem_append,
    List.forall_mem_singleton, Node.parts, List.flatMap_singleton, ownNames, List.nodup_nil,
    true_and]
  rfl

theorem compound_fresh (hstmts : ∀ s ∈ stmts, FreshMeaning s) :
    FreshMeaning (.compound tag stmts) := by
  intro env hd
  have hframe : env.FrameDistinct := hd env.frame (by simp)
  have hall := freshMeaning_all stmts hstmts (env.enter []) (Env.distinct_enter hd List.nodup_nil)
  have hinner : ((env.enter []).extend (declaredAll stmts)).FrameDistinct ↔
      ((declaredAll stmts).map Symbol.name).Nodup := by
    rw [Env.FrameDistinct, Env.extend_frame]
    exact nodup_names_reverse (x := [])
  rw [sites, declared, Env.extend_nil, List.forall_mem_cons, hall, hinner, Node.nodes_eq]
  simp only [Node.isAbsent, Bool.false_eq_true, if_false, List.forall_mem_append,
    List.forall_mem_singleton, Node.parts, ownNames]
  constructor
  · rintro ⟨-, hdist, hown⟩
    exact ⟨hframe, hdist, hown⟩
  · rintro ⟨-, hdist, hown⟩
    exact ⟨trivial, hdist, hown⟩

theorem plain_fresh {n : Node} (hplain : isPlain n = true)
    (hparts : ∀ p ∈ n.parts, FreshMeaning p) : FreshMeaning n := by
  intro env hd
  have hthere : n.isAbsent = false := by cases n <;> first | rfl | simp [isPlain] at hplain
  rw [sites_plain hplain, declared_plain hplain, List.forall_mem_cons,
    freshMeaning_all n.parts hparts env hd, Node.nodes_eq, hthere, List.forall_mem_append]
  simp only [Bool.false_eq_true, if_false, List.forall_mem_singleton]
  constructor
  · rintro ⟨-, hdist, hown⟩
    exact ⟨hdist, ownNames_plain hplain hdist, hown⟩
  · rintro ⟨hdist, -, hown⟩
    exact ⟨fresh_plain hplain env, hdist, hown⟩

end Meaning

/-- **Distinct names, seen place by place and scope by scope.**  Every variable is new
where it is declared exactly if no scope has a name twice. -/
theorem freshMeaning : ∀ n : Node, FunctionsFormed n → FreshMeaning n := by
  intro n
  induction n using Node.parts_induction with
  | _ n ih ih₂ =>
  intro hform
  have part : ∀ p ∈ n.parts, FreshMeaning p := fun p hp => ih p hp (hform.part hp)
  by_cases hplain : isPlain n = true
  · exact plain_fresh hplain part
  cases n with
  | absent =>
    intro env hd
    have hframe : env.FrameDistinct := hd env.frame (by simp)
    simpa [sites, declared, Node.nodes, Node.walk] using hframe
  | function tag name params result body =>
    obtain ⟨⟨inner, stmts, rfl⟩, hparams⟩ :=
      hform tag name params result body (Node.mem_nodes_self rfl)
    have hbody : Node.compound inner stmts ∈
        (Node.function tag name params result (.compound inner stmts)).parts := by
      simp [Node.parts]
    exact function_fresh hparams fun s hs =>
      ih₂ (.compound inner stmts) hbody s hs ((hform.part hbody).part hs)
  | var tag name type init => exact var_fresh (part init (by simp [Node.parts]))
  | compound tag stmts => exact compound_fresh part
  | _ => simp [isPlain] at hplain

theorem distinct_behind {n : Node} (hform : FunctionsFormed n) {env : Env} (hd : env.Distinct)
    (hfresh : ∀ s ∈ sites env n, s.Fresh) : (env.extend (declared n)).Distinct :=
  Env.distinct_extend hd ((freshMeaning n hform env hd).mp hfresh).1

theorem distinct_sitesAll : ∀ ns : List Node, (∀ n ∈ ns, FunctionsFormed n) →
    (∀ n ∈ ns, ∀ env : Env, env.Distinct → (∀ s ∈ sites env n, s.Fresh) →
      ∀ s ∈ sites env n, s.env.Distinct) →
    ∀ env : Env, env.Distinct → (∀ s ∈ sitesAll env ns, s.Fresh) →
      ∀ s ∈ sitesAll env ns, s.env.Distinct := by
  intro ns
  induction ns with
  | nil => intro _ _ env _ _ s hs; simp [sitesAll] at hs
  | cons n ns ih =>
    intro hform h env hd hfresh
    rw [sitesAll, List.forall_mem_append] at hfresh ⊢
    obtain ⟨hn, hns⟩ := hfresh
    refine ⟨h n (by simp) env hd hn, ih ?_ ?_ _ (distinct_behind (hform n (by simp)) hd hn) hns⟩
    · exact fun m hm => hform m (by simp [hm])
    · exact fun m hm => h m (by simp [hm])

/-- At every place the open scopes have distinct names, if every variable is new. -/
theorem distinct_sites : ∀ n : Node, FunctionsFormed n → ∀ env : Env, env.Distinct →
    (∀ s ∈ sites env n, s.Fresh) → ∀ s ∈ sites env n, s.env.Distinct := by
  intro n
  induction n using Node.parts_induction with
  | _ n ih ih₂ =>
  intro hform env hd hfresh
  have part : ∀ p ∈ n.parts, FunctionsFormed p := fun p hp => hform.part hp
  by_cases hplain : isPlain n = true
  · rw [sites_plain hplain, List.forall_mem_cons] at hfresh ⊢
    exact ⟨hd, distinct_sitesAll n.parts part (fun p hp => ih p hp (part p hp)) env hd hfresh.2⟩
  cases n with
  | absent => intro s hs; simp [sites] at hs
  | function tag name params result body =>
    obtain ⟨⟨inner, stmts, rfl⟩, -⟩ :=
      hform tag name params result body (Node.mem_nodes_self rfl)
    have hbody := part (.compound inner stmts) (by simp [Node.parts])
    rw [sites, List.forall_mem_cons] at hfresh ⊢
    obtain ⟨hself, hrest⟩ := hfresh
    refine ⟨hd, distinct_sitesAll stmts (fun s hs => hbody.part hs) (fun s hs => ?_) _ ?_ hrest⟩
    · exact ih₂ (.compound inner stmts) (by simp [Node.parts]) s hs (hbody.part hs)
    · exact Env.distinct_enter hd (by rw [List.map_reverse, List.nodup_reverse]; exact hself)
  | var tag name type init =>
    rw [sites, List.forall_mem_cons] at hfresh ⊢
    exact ⟨hd, ih init (by simp [Node.parts]) (part init (by simp [Node.parts])) env hd hfresh.2⟩
  | compound tag stmts =>
    rw [sites, List.forall_mem_cons] at hfresh ⊢
    exact ⟨hd, distinct_sitesAll stmts part (fun s hs => ih s hs (part s hs)) _
      (Env.distinct_enter hd List.nodup_nil) hfresh.2⟩
  | _ => simp [isPlain] at hplain

/-! ## The places cover the tree -/

theorem sitesAll_nodes : ∀ (ns : List Node),
    (∀ n ∈ ns, ∀ env, ((sites env n).map Site.node).Sublist n.nodes) → ∀ env,
      ((sitesAll env ns).map Site.node).Sublist (ns.flatMap Node.nodes) := by
  intro ns
  induction ns with
  | nil => intro _ env; exact List.Sublist.slnil
  | cons n ns ih =>
    intro h env
    rw [sitesAll, List.map_append, List.flatMap_cons]
    exact (h n (by simp) env).append (ih (fun m hm => h m (by simp [hm])) _)

/-- The places are met in the order of a walk, none twice. -/
theorem sites_nodes : ∀ (n : Node) (env : Env),
    ((sites env n).map Site.node).Sublist n.nodes := by
  intro n
  induction n using Node.parts_induction with
  | _ n ih ih₂ =>
  intro env
  by_cases hplain : isPlain n = true
  · have hthere : n.isAbsent = false := by cases n <;> first | rfl | simp [isPlain] at hplain
    rw [sites_plain hplain, Node.nodes_eq, hthere]
    exact (sitesAll_nodes n.parts ih env).cons_cons n
  cases n with
  | absent => simp [sites]
  | function tag name params result body =>
    rw [Node.nodes_eq]
    by_cases hbody : ∃ inner stmts, body = .compound inner stmts
    · obtain ⟨inner, stmts, rfl⟩ := hbody
      have hrec := sitesAll_nodes stmts (ih₂ (.compound inner stmts) (by simp [Node.parts]))
        (env.enter (paramSymbols params).reverse)
      have hstmts : (stmts.flatMap Node.nodes).Sublist (Node.compound inner stmts).nodes := by
        rw [Node.nodes_eq]
        exact List.sublist_append_right _ _
      rw [sites]
      refine List.Sublist.cons_cons _ (hrec.trans (hstmts.trans ?_))
      simp only [Node.parts, List.flatMap_append, List.flatMap_cons, List.flatMap_nil,
        List.append_nil]
      exact List.sublist_append_right _ _
    · have hsites : sites env (.function tag name params result body) =
          [⟨.function tag name params result body, env⟩] := by
        cases body <;> first | exact absurd ⟨_, _, rfl⟩ hbody | simp [sites]
      rw [hsites]
      exact List.Sublist.cons_cons _ (List.nil_sublist _)
  | var tag name type init =>
    rw [sites, Node.nodes_eq]
    refine List.Sublist.cons_cons _ ?_
    simpa [Node.parts] using ih init (by simp [Node.parts]) env
  | compound tag stmts =>
    rw [sites, Node.nodes_eq]
    exact List.Sublist.cons_cons _ (sitesAll_nodes stmts ih _)
  | _ => simp [isPlain] at hplain

theorem sitesAll_cover {m : Node} : ∀ (ns : List Node),
    (∀ n ∈ ns, ∀ env, m ∈ n.nodes → ∃ env', ⟨m, env'⟩ ∈ sites env n) → ∀ env,
      m ∈ ns.flatMap Node.nodes → ∃ env', ⟨m, env'⟩ ∈ sitesAll env ns := by
  intro ns
  induction ns with
  | nil => intro _ env hm; simp at hm
  | cons n ns ih =>
    intro h env hm
    rw [List.flatMap_cons, List.mem_append] at hm
    rw [sitesAll]
    rcases hm with hm | hm
    · obtain ⟨env', he⟩ := h n (by simp) env hm
      exact ⟨env', List.mem_append_left _ he⟩
    · obtain ⟨env', he⟩ := ih (fun k hk => h k (by simp [hk])) (env.extend (declared n)) hm
      exact ⟨env', List.mem_append_right _ he⟩

theorem sites_cover {tag : Tag} {name : String} : ∀ n : Node, FunctionsFormed n → ∀ env : Env,
    .ident tag name ∈ n.nodes → ∃ env', ⟨.ident tag name, env'⟩ ∈ sites env n := by
  intro n
  induction n using Node.parts_induction with
  | _ n ih ih₂ =>
  intro hform env hm
  have part : ∀ p ∈ n.parts, ∀ env, .ident tag name ∈ p.nodes →
      ∃ env', ⟨.ident tag name, env'⟩ ∈ sites env p := fun p hp => ih p hp (hform.part hp)
  rw [Node.nodes_eq, List.mem_append] at hm
  by_cases hplain : isPlain n = true
  · rw [sites_plain hplain]
    rcases hm with hm | hm
    · have hn : .ident tag name = n := by
        split at hm
        · simp at hm
        · exact List.mem_singleton.mp hm
      exact ⟨env, by rw [← hn]; exact List.mem_cons_self⟩
    · obtain ⟨env', he⟩ := sitesAll_cover n.parts part env hm
      exact ⟨env', List.mem_cons_of_mem _ he⟩
  cases n with
  | absent => simp [Node.isAbsent, Node.parts] at hm
  | function ftag fname params result body =>
    obtain ⟨⟨inner, stmts, rfl⟩, hparams⟩ :=
      hform ftag fname params result body (Node.mem_nodes_self rfl)
    have hbody := hform.part (p := .compound inner stmts) (by simp [Node.parts])
    rw [sites]
    rcases hm with hm | hm
    · simp [Node.isAbsent] at hm
    · obtain ⟨p, hp, hm⟩ := List.mem_flatMap.mp hm
      rw [Node.parts, List.mem_append, List.mem_singleton] at hp
      rcases hp with hp | rfl
      · obtain ⟨ptag, pname, type, rfl⟩ := hparams p hp
        simp [Node.nodes, Node.walk] at hm
      · rw [Node.nodes_eq] at hm
        rcases List.mem_append.mp hm with hm | hm
        · simp [Node.isAbsent] at hm
        · obtain ⟨env', he⟩ := sitesAll_cover stmts
            (fun s hs => ih₂ (.compound inner stmts) (by simp [Node.parts]) s hs (hbody.part hs))
            (env.enter (paramSymbols params).reverse) hm
          exact ⟨env', List.mem_cons_of_mem _ he⟩
  | var vtag vname type init =>
    rw [sites]
    rcases hm with hm | hm
    · simp [Node.isAbsent] at hm
    · obtain ⟨env', he⟩ := part init (by simp [Node.parts]) env (by simpa [Node.parts] using hm)
      exact ⟨env', List.mem_cons_of_mem _ he⟩
  | compound ctag stmts =>
    rw [sites]
    rcases hm with hm | hm
    · simp [Node.isAbsent] at hm
    · obtain ⟨env', he⟩ := sitesAll_cover stmts part (env.enter []) hm
      exact ⟨env', List.mem_cons_of_mem _ he⟩
  | _ => simp [isPlain] at hplain

/-! ## Where symbols come from -/

/-- The symbol stands for the declaration. -/
inductive DeclaredBy : Symbol → Node → Prop
  | var {tag : Tag} {name : String} {type : ValueType} {init : Node} :
      DeclaredBy (varSymbol tag name) (.var tag name type init)
  | param {tag : Tag} {name : String} {type : ValueType} :
      DeclaredBy ⟨name, .param, ⟨tag.label, tag.kind, name⟩⟩ (.param tag name type)
  | function {tag : Tag} {name : String} {params : List Node} {result : ValueType} {body : Node} :
      DeclaredBy ⟨name, .function, ⟨tag.label, tag.kind, name⟩⟩
        (.function tag name params result body)

theorem DeclaredBy.decl? {x : Symbol} {d : Node} (h : DeclaredBy x d) : d.decl? = some x.decl := by
  cases h <;> rfl

/-- All symbols of the open scopes stand for declarations among the nodes. -/
def Env.From (ns : List Node) (env : Env) : Prop := env.All fun x => ∃ d ∈ ns, DeclaredBy x d

theorem declaredAll_eq (ns : List Node) : declaredAll ns = ns.flatMap declared := by
  induction ns with
  | nil => rw [declaredAll]; rfl
  | cons n ns ih => rw [declaredAll, ih, List.flatMap_cons]

theorem declared_from : ∀ (n : Node), ∀ x ∈ declared n, ∃ d ∈ n.nodes, DeclaredBy x d := by
  intro n
  induction n using Node.parts_induction with
  | _ n ih _ =>
  intro x hx
  by_cases hplain : isPlain n = true
  · rw [declared_plain hplain, declaredAll_eq] at hx
    obtain ⟨p, hp, hx⟩ := List.mem_flatMap.mp hx
    obtain ⟨d, hd, hby⟩ := ih p hp x hx
    exact ⟨d, Node.mem_nodes_of_part hp hd, hby⟩
  cases n with
  | var tag name type init =>
    rw [declared, List.mem_append, List.mem_singleton] at hx
    rcases hx with hx | rfl
    · have hp : init ∈ (Node.var tag name type init).parts := by simp [Node.parts]
      obtain ⟨d, hd, hby⟩ := ih init hp x hx
      exact ⟨d, Node.mem_nodes_of_part hp hd, hby⟩
    · exact ⟨_, Node.mem_nodes_self rfl, .var⟩
  | absent | function | compound => simp [declared] at hx
  | _ => simp [isPlain] at hplain

theorem paramSymbols_from {params : List Node}
    (h : ∀ p ∈ params, ∃ tag name type, p = .param tag name type) :
    ∀ x ∈ paramSymbols params, ∃ d ∈ params, DeclaredBy x d := by
  intro x hx
  rw [paramSymbols, List.mem_map] at hx
  obtain ⟨⟨y, pos⟩, hy, rfl⟩ := hx
  obtain ⟨p, hp, hsym⟩ := List.mem_filterMap.mp hy
  obtain ⟨tag, name, type, rfl⟩ := h p hp
  cases hsym
  exact ⟨_, hp, .param⟩

theorem sitesAll_from {all : List Node} : ∀ (ns : List Node),
    (∀ n ∈ ns, ∀ m ∈ n.nodes, m ∈ all) →
    (∀ n ∈ ns, ∀ env : Env, env.From all → ∀ s ∈ sites env n, s.env.From all) →
    ∀ env : Env, env.From all → ∀ s ∈ sitesAll env ns, s.env.From all := by
  intro ns
  induction ns with
  | nil => intro _ _ env _ s hs; simp [sitesAll] at hs
  | cons n ns ih =>
    intro hall h env henv
    rw [sitesAll, List.forall_mem_append]
    refine ⟨h n (by simp) env henv,
      ih (fun k hk => hall k (by simp [hk])) (fun k hk => h k (by simp [hk])) _ ?_⟩
    refine Env.All.extend henv fun x hx => ?_
    obtain ⟨d, hd, hby⟩ := declared_from n x hx
    exact ⟨d, hall n (by simp) d hd, hby⟩

/-- At every place of a tree, the open scopes hold declarations of the tree. -/
theorem sites_from {all : List Node} : ∀ n : Node, FunctionsFormed n → (∀ m ∈ n.nodes, m ∈ all) →
    ∀ env : Env, env.From all → ∀ s ∈ sites env n, s.env.From all := by
  intro n
  induction n using Node.parts_induction with
  | _ n ih ih₂ =>
  intro hform hall env henv
  have hsub : ∀ p ∈ n.parts, ∀ m ∈ p.nodes, m ∈ all :=
    fun p hp m hm => hall m (Node.mem_nodes_of_part hp hm)
  have part : ∀ p ∈ n.parts, ∀ env : Env, env.From all → ∀ s ∈ sites env p, s.env.From all :=
    fun p hp => ih p hp (hform.part hp) (hsub p hp)
  by_cases hplain : isPlain n = true
  · rw [sites_plain hplain, List.forall_mem_cons]
    exact ⟨henv, sitesAll_from n.parts hsub part env henv⟩
  cases n with
  | absent => intro s hs; simp [sites] at hs
  | function tag name params result body =>
    obtain ⟨⟨inner, stmts, rfl⟩, hparams⟩ :=
      hform tag name params result body (Node.mem_nodes_self rfl)
    have hbody : Node.compound inner stmts ∈
        (Node.function tag name params result (.compound inner stmts)).parts := by
      simp [Node.parts]
    have hsub₂ : ∀ s ∈ stmts, ∀ m ∈ s.nodes, m ∈ all :=
      fun s hs m hm => hsub _ hbody m (Node.mem_nodes_of_part hs hm)
    rw [sites, List.forall_mem_cons]
    refine ⟨henv, sitesAll_from stmts hsub₂ (fun s hs => ?_) _ (Env.All.enter henv fun x hx => ?_)⟩
    · exact ih₂ _ hbody s hs ((hform.part hbody).part hs) (hsub₂ s hs)
    · obtain ⟨d, hd, hby⟩ := paramSymbols_from hparams x (List.mem_reverse.mp hx)
      obtain ⟨ptag, pname, type, rfl⟩ := hparams d hd
      exact ⟨_, hsub _ (by simp [Node.parts, hd]) _ (Node.mem_nodes_self rfl), hby⟩
  | var tag name type init =>
    rw [sites, List.forall_mem_cons]
    exact ⟨henv, part init (by simp [Node.parts]) env henv⟩
  | compound tag stmts =>
    rw [sites, List.forall_mem_cons]
    exact ⟨henv, sitesAll_from stmts hsub part _ (Env.All.enter henv (by simp))⟩
  | _ => simp [isPlain] at hplain

/-! ## The bindings made -/

/-- The label of the identifier that a place binds. -/
def Site.bound? (s : Site) : Option Label :=
  match s.node with
  | .ident tag _ => some tag.label
  | _ => none

theorem bind_find?_of_ne (b : Bindings) {s : Site} {l : Label} (h : s.bound? ≠ some l) :
    (s.bind b).find? l = b.find? l := by
  obtain ⟨n, env⟩ := s
  cases n with
  | ident tag name =>
    have hl : l ≠ tag.label := fun he => h (by rw [he]; rfl)
    rw [Site.bind]
    cases hf : env.find? name with
    | none => simp [hf]
    | some symbol => simp [hf, Bindings.find?_bind, hl]
  | _ => rfl

theorem record_find?_of_notMem : ∀ (ss : List Site) (b : Bindings) (l : Label),
    l ∉ ss.filterMap Site.bound? → (record b ss).find? l = b.find? l := by
  intro ss
  induction ss with
  | nil => intro b l _; rfl
  | cons s ss ih =>
    intro b l hl
    rw [List.mem_filterMap] at hl
    have hs : s.bound? ≠ some l := fun he => hl ⟨s, by simp, he⟩
    have hrest : l ∉ ss.filterMap Site.bound? := by
      rw [List.mem_filterMap]
      rintro ⟨s', hs', he⟩
      exact hl ⟨s', by simp [hs'], he⟩
    show (record (s.bind b) ss).find? l = b.find? l
    rw [ih (s.bind b) l hrest, bind_find?_of_ne b hs]

/-- **An identifier is bound to the symbol found at its place**, if no other place binds
the same identifier. -/
theorem record_find? : ∀ (ss : List Site) (b : Bindings), (ss.filterMap Site.bound?).Nodup →
    ∀ (tag : Tag) (name : String) (env : Env) (symbol : Symbol),
      ⟨.ident tag name, env⟩ ∈ ss → env.find? name = some symbol →
        (record b ss).find? tag.label = some symbol.decl := by
  intro ss
  induction ss with
  | nil => intro b _ tag name env symbol hs; simp at hs
  | cons s ss ih =>
    intro b hnd tag name env symbol hs hfind
    show (record (s.bind b) ss).find? tag.label = some symbol.decl
    rcases List.mem_cons.mp hs with rfl | hs
    · have hself : Site.bound? ⟨.ident tag name, env⟩ = some tag.label := rfl
      rw [List.filterMap_cons_some hself, List.nodup_cons] at hnd
      rw [record_find?_of_notMem ss _ _ hnd.1, Site.bind]
      simp only [hfind, Option.elim_some, Bindings.find?_bind, if_true]
    · refine ih (s.bind b) ?_ tag name env symbol hs hfind
      cases hb : s.bound? with
      | none => rwa [List.filterMap_cons_none hb] at hnd
      | some l =>
        rw [List.filterMap_cons_some hb] at hnd
        exact (List.nodup_cons.mp hnd).2

theorem bound?_sublist (ss : List Site) :
    (ss.filterMap Site.bound?).Sublist ((ss.map Site.node).filterMap Node.label?) := by
  induction ss with
  | nil => exact List.Sublist.slnil
  | cons s ss ih =>
    obtain ⟨n, env⟩ := s
    cases n with
    | absent => exact ih
    | ident tag name => exact ih.cons_cons tag.label
    | _ => exact ih.cons _

/-! ## The top level -/

/-- The node is there, and of the kind that it claims to be. -/
def IsProper (n : Node) : Prop := n.isAbsent = false ∧ n.Agrees

def functionNames (decls : List Node) : List String :=
  decls.filterMap fun
    | .function _ name _ _ _ => some name
    | _ => none

def globalNames (decls : List Node) : List String :=
  decls.filterMap fun
    | .var _ name _ _ => some name
    | _ => none

def functionSymbols (decls : List Node) : List Symbol :=
  decls.filterMap fun
    | .function tag name _ _ _ => some ⟨name, .function, ⟨tag.label, tag.kind, name⟩⟩
    | _ => none

/-- The environment at the start of a program: its functions are there already. -/
def programEnv (decls : List Node) : Env := { frame := (functionSymbols decls).reverse }

def programSites (decls : List Node) : List Site := sitesAll (programEnv decls) decls

theorem functionSymbols_names (decls : List Node) :
    (functionSymbols decls).map Symbol.name = functionNames decls := by
  rw [functionSymbols, functionNames, List.map_filterMap]
  congr 1
  funext d
  cases d <;> rfl

/-- What the first look at the top level finds out. -/
structure SurfaceOf (s s' : Surface) (decls : List Node) : Prop where
  isFunction : ∀ name, s'.table.isFunction name = true ↔
    s.table.isFunction name = true ∨ name ∈ functionNames decls
  isGlobal : ∀ name, s'.table.isGlobal name = true ↔
    s.table.isGlobal name = true ∨ name ∈ globalNames decls
  fault : s.fault = none → (s.frame.map Symbol.name).Nodup →
    (s'.fault = none ↔ (((functionSymbols decls).reverse ++ s.frame).map Symbol.name).Nodup)
  frame : s.fault = none → s'.fault = none → s'.frame = (functionSymbols decls).reverse ++ s.frame
  faulty : s.fault ≠ none → s'.fault ≠ none

theorem Table.isFunction_addFunction (t : Table) (name other : String) :
    (t.addFunction name).isFunction other = true ↔ t.isFunction other = true ∨ other = name := by
  rw [Table.addFunction]
  split
  · next h =>
    constructor
    · exact Or.inl
    · rintro (h' | rfl)
      · exact h'
      · exact h
  · simp [Table.isFunction]

theorem Table.isGlobal_addGlobal (t : Table) (name other : String) :
    (t.addGlobal name).isGlobal other = true ↔ t.isGlobal other = true ∨ other = name := by
  rw [Table.addGlobal]
  split
  · next h =>
    constructor
    · exact Or.inl
    · rintro (h' | rfl)
      · exact h'
      · exact h
  · simp [Table.isGlobal]

@[simp] theorem Table.isGlobal_addFunction (t : Table) (name other : String) :
    (t.addFunction name).isGlobal other = t.isGlobal other := by
  rw [Table.addFunction]
  split <;> rfl

@[simp] theorem Table.isFunction_addGlobal (t : Table) (name other : String) :
    (t.addGlobal name).isFunction other = t.isFunction other := by
  rw [Table.addGlobal]
  split <;> rfl

theorem SurfaceOf.refl (s : Surface) : SurfaceOf s s [] :=
  ⟨by simp [functionNames], by simp [globalNames], fun h hnd => by simp [functionSymbols, h, hnd],
    fun _ _ => rfl, fun h => h⟩

theorem SurfaceOf.trans {s s₁ s₂ : Surface} {xs ys : List Node} (h₁ : SurfaceOf s s₁ xs)
    (h₂ : SurfaceOf s₁ s₂ ys) : SurfaceOf s s₂ (xs ++ ys) := by
  have hsym : (functionSymbols (xs ++ ys)).reverse =
      (functionSymbols ys).reverse ++ (functionSymbols xs).reverse := by
    rw [functionSymbols, List.filterMap_append, List.reverse_append]
    rfl
  refine ⟨fun name => ?_, fun name => ?_, fun hf hnd => ?_, fun hf hf₂ => ?_, fun hf => ?_⟩
  · rw [h₂.isFunction, h₁.isFunction, or_assoc, ← List.mem_append]
    exact iff_of_eq (congrArg _ (congrArg _ List.filterMap_append.symm))
  · rw [h₂.isGlobal, h₁.isGlobal, or_assoc, ← List.mem_append]
    exact iff_of_eq (congrArg _ (congrArg _ List.filterMap_append.symm))
  · rw [hsym, List.append_assoc]
    have key := h₁.fault hf hnd
    by_cases hf₁ : s₁.fault = none
    · rw [← h₁.frame hf hf₁] at key ⊢
      exact h₂.fault hf₁ (key.mp hf₁)
    · refine iff_of_false (h₂.faulty hf₁) fun hnd' => hf₁ (key.mpr ?_)
      rw [List.map_append] at hnd'
      exact hnd'.of_append_right
  · have hf₁ : s₁.fault = none := by
      by_contra hne
      exact h₂.faulty hne hf₂
    rw [h₂.frame hf₁ hf₂, h₁.frame hf hf₁, hsym, List.append_assoc]
  · exact h₂.faulty (h₁.faulty hf)

theorem surfaceOf_function (s : Surface) {tag : Tag} (hk : tag.kind = .functionDecl)
    (name : String) (params : List Node) (result : ValueType) (body : Node) :
    SurfaceOf s (s.add (.function tag name params result body))
      [.function tag name params result body] := by
  have hadd : s.add (.function tag name params result body) =
      if (s.frame.find? name).isSome then
        { s with
          table := s.table.addFunction name
          fault := s.fault.or (some ⟨tag.pos, .redeclared name⟩) }
      else
        { s with
          table := s.table.addFunction name
          frame := ⟨name, .function, ⟨tag.label, tag.kind, name⟩⟩ :: s.frame } := by
    simp only [Surface.add, symbolOf?, Node.tag?, Option.map_some, hk, Node.name, Frame.declare]
    by_cases hf : (s.frame.find? name).isSome = true
    · rw [if_pos hf, if_pos hf]
    · rw [if_neg hf, if_neg hf]
  have hsym : functionSymbols [.function tag name params result body] =
      [⟨name, .function, ⟨tag.label, tag.kind, name⟩⟩] := rfl
  rw [hadd]
  by_cases hf : (s.frame.find? name).isSome = true
  · rw [if_pos hf]
    have hin := Frame.find?_isSome.mp hf
    refine ⟨fun other => ?_, fun other => ?_, fun _ _ => ?_, fun hf' h => ?_, fun _ => ?_⟩
    · simpa [functionNames] using Table.isFunction_addFunction s.table name other
    · simp [globalNames]
    · rw [hsym]
      refine iff_of_false (by cases s.fault <;> simp) fun hnd => ?_
      exact (List.nodup_cons.mp hnd).1 hin
    · simp [hf'] at h
    · cases s.fault <;> simp
  · rw [if_neg hf]
    have hnot : name ∉ s.frame.map Symbol.name := fun h => hf (Frame.find?_isSome.mpr h)
    refine ⟨fun other => ?_, fun other => ?_, fun hf' hnd => ?_, fun _ _ => rfl, fun h => h⟩
    · simpa [functionNames] using Table.isFunction_addFunction s.table name other
    · simp [globalNames]
    · rw [hsym]
      exact iff_of_true hf' (List.nodup_cons.mpr ⟨hnot, hnd⟩)

theorem surfaceOf_var (s : Surface) {tag : Tag} (hk : tag.kind = .varDecl) (name : String)
    (type : ValueType) (init : Node) :
    SurfaceOf s (s.add (.var tag name type init)) [.var tag name type init] := by
  have hadd : s.add (.var tag name type init) = { s with table := s.table.addGlobal name } := by
    simp only [Surface.add, symbolOf?, Node.tag?, Option.map_some, hk, Node.name]
  rw [hadd]
  refine ⟨fun other => ?_, fun other => ?_, fun hf hnd => ?_, fun _ _ => rfl, fun h => h⟩
  · simp [functionNames]
  · simpa [globalNames] using Table.isGlobal_addGlobal s.table name other
  · exact iff_of_true hf hnd

theorem surfaceOf_rest (s : Surface) {d : Node} (hd : IsProper d)
    (hkind : d.payloadKind? ≠ some .functionDecl ∧ d.payloadKind? ≠ some .varDecl) :
    SurfaceOf s (s.add d) [d] := by
  obtain ⟨hthere, hagree⟩ := hd
  rw [← hagree] at hkind
  have hadd : s.add d = s := by
    rw [Surface.add, symbolOf?]
    cases htag : d.tag? with
    | none => rfl
    | some tag =>
      obtain ⟨hf, hv⟩ := hkind
      simp only [htag, Option.map_some, ne_eq, Option.some.injEq] at hf hv
      simp only [Option.map_some]
  have hnone : functionNames [d] = [] ∧ globalNames [d] = [] ∧ functionSymbols [d] = [] := by
    rw [hagree] at hkind
    cases d with
    | function | var => simp [Node.payloadKind?] at hkind
    | _ => exact ⟨rfl, rfl, rfl⟩
  obtain ⟨hfun, hglob, hsym⟩ := hnone
  rw [hadd]
  refine ⟨fun name => ?_, fun name => ?_, fun hf hnd => ?_, fun _ _ => ?_, fun h => h⟩
  · simp [hfun]
  · simp [hglob]
  · rw [hsym]
    exact iff_of_true hf hnd
  · rw [hsym]
    rfl

theorem surfaceOf_foldl : ∀ (decls : List Node) (s : Surface), (∀ d ∈ decls, IsProper d) →
    SurfaceOf s (decls.foldl Surface.add s) decls := by
  intro decls
  induction decls with
  | nil => intro s _; exact SurfaceOf.refl s
  | cons d decls ih =>
    intro s h
    have hd : SurfaceOf s (s.add d) [d] := by
      have hproper := h d (by simp)
      cases d with
      | function tag => exact surfaceOf_function s (Option.some.inj hproper.2) ..
      | var tag => exact surfaceOf_var s (Option.some.inj hproper.2) ..
      | _ => exact surfaceOf_rest s hproper (by simp [Node.payloadKind?])
    exact hd.trans (ih (s.add d) fun m hm => h m (by simp [hm]))

/-- What resolution of a program finds out: which names are functions and variables of
the program scope, and that all places are in order. -/
structure Resolved (decls : List Node) (t : Table) (b₀ b : Bindings) : Prop where
  isFunction : ∀ name, t.isFunction name = true ↔ name ∈ functionNames decls
  isGlobal : ∀ name, t.isGlobal name = true ↔ name ∈ globalNames decls
  functions : (functionNames decls).Nodup
  bindings : b = record b₀ (programSites decls)
  sites_ok : ∀ s ∈ programSites decls, s.Ok t

theorem surface_table {decls : List Node} (hdecl : ∀ d ∈ decls, IsProper d) :
    (∀ name, (decls.foldl Surface.add {}).table.isFunction name = true ↔
      name ∈ functionNames decls) ∧
    ∀ name, (decls.foldl Surface.add {}).table.isGlobal name = true ↔
      name ∈ globalNames decls := by
  have hsurface := surfaceOf_foldl decls {} hdecl
  refine ⟨fun name => (hsurface.isFunction name).trans ?_,
    fun name => (hsurface.isGlobal name).trans ?_⟩
  · simp [Table.isFunction]
  · simp [Table.isGlobal]

theorem resolveProgram_of_kind {tag : Tag} {decls : List Node} (hk : tag.kind = .program)
    (hdecl : ∀ d ∈ decls, IsProper d) (b₀ : Bindings) :
    resolveProgram (.program tag decls) b₀ =
      (do
        raise (decls.foldl Surface.add {}).fault
        let _ ← resolveAll (decls.foldl Surface.add {}).table
          { frame := (decls.foldl Surface.add {}).frame } decls
        return (decls.foldl Surface.add {}).table : Resolve Table) b₀ := by
  have hthere : decls.any Node.isAbsent = false := by
    rw [List.any_eq_false]
    intro d hd
    simp [(hdecl d hd).1]
  simp [resolveProgram, Node.tag?, hk, resolveDecls, hthere]

/-- **A program is resolved** exactly if its functions have different names and its
places are in order. -/
theorem resolveProgram_eq_ok {tag : Tag} {decls : List Node} (hk : tag.kind = .program)
    (hdecl : ∀ d ∈ decls, IsProper d) {t : Table} {b₀ b : Bindings} :
    resolveProgram (.program tag decls) b₀ = .ok t b ↔
      t = (decls.foldl Surface.add {}).table ∧ Resolved decls t b₀ b := by
  have hsurface := surfaceOf_foldl decls {} hdecl
  have hnames := surface_table hdecl
  generalize hs : decls.foldl Surface.add {} = s at hsurface hnames
  have hfault : s.fault = none ↔ (functionNames decls).Nodup := by
    rw [hsurface.fault rfl List.nodup_nil, ← functionSymbols_names, ← List.nodup_reverse,
      ← List.map_reverse]
    simp
  have hframe : s.fault = none → ({ frame := s.frame } : Env) = programEnv decls := by
    intro h
    rw [hsurface.frame rfl h, programEnv]
    simp
  rw [resolveProgram_of_kind hk hdecl, hs, bind_eq_ok]
  cases hf : s.fault with
  | some f =>
    refine iff_of_false ?_ ?_
    · rintro ⟨_, _, h, -⟩
      cases h
    · rintro ⟨-, hres⟩
      rw [hfault.mpr hres.functions] at hf
      cases hf
  | none =>
    rw [hframe hf]
    simp only [bind_eq_ok, resolveAll_follows decls fun n _ => resolve_follows n]
    constructor
    · rintro ⟨_, _, h, _, _, ⟨-, hb, hok⟩, h'⟩
      cases h
      cases h'
      exact ⟨rfl, hnames.1, hnames.2, hfault.mp hf, hb, hok⟩
    · rintro ⟨rfl, hres⟩
      exact ⟨⟨⟩, b₀, rfl, _, b, ⟨rfl, hres.bindings, hres.sites_ok⟩, rfl⟩

/-! ## The rules of scoping -/

/-- A variable below the program scope has no name of a variable in it. -/
def Site.Apart (globals : List String) (s : Site) : Prop :=
  match s.node with
  | .var _ name _ _ => s.env.isNested = true → name ∉ globals
  | _ => True

/-- An identifier shows a variable or a parameter, and a callee a function. -/
def Site.Shown (s : Site) : Prop :=
  match s.node with
  | .ident _ name => ∃ symbol, s.env.Shows name symbol ∧ symbol.role ≠ .function
  | .call _ callee _ => ∃ symbol, s.env.Shows callee symbol ∧ symbol.role = .function
  | _ => True

/-- **The rules of lexical scoping** for a program with these declarations. -/
structure Lexical (tag : Tag) (decls : List Node) : Prop where
  functions_distinct : (functionNames decls).Nodup
  functions_apart : ∀ name ∈ functionNames decls, name ∉ ownNames (.program tag decls)
  scopes_distinct : ∀ n ∈ (Node.program tag decls).nodes, (ownNames n).Nodup
  locals_apart : ∀ s ∈ programSites decls, s.Apart (globalNames decls)
  names_shown : ∀ s ∈ programSites decls, s.Shown

/-- What the grammar promises of a program. -/
structure WellFormed (tag : Tag) (decls : List Node) : Prop where
  kind : tag.kind = .program
  proper : ∀ d ∈ decls, IsProper d
  functions : FunctionsFormed (.program tag decls)

theorem Site.fresh_of_ok {t : Table} {s : Site} (h : s.Ok t) : s.Fresh := by
  obtain ⟨n, env⟩ := s
  cases n with
  | var tag name type init => exact h.2
  | function tag name params result body => exact h.2.1
  | _ => trivial

theorem Site.apart_of_ok {t : Table} {globals : List String}
    (hg : ∀ name, t.isGlobal name = true ↔ name ∈ globals) {s : Site} (h : s.Ok t) :
    s.Apart globals := by
  obtain ⟨n, env⟩ := s
  cases n with
  | var tag name type init => exact fun hn hmem => h.1 ⟨(hg name).mpr hmem, hn⟩
  | _ => trivial

theorem Site.shown_of_ok {t : Table} {s : Site} (h : s.Ok t) : s.Shown := by
  obtain ⟨n, env⟩ := s
  cases n with
  | ident tag name =>
    obtain ⟨symbol, hfind, hrole⟩ := h
    exact ⟨symbol, Env.shows_of_find? hfind, hrole⟩
  | call tag callee args =>
    obtain ⟨symbol, hfind, hrole⟩ := h
    exact ⟨symbol, Env.shows_of_find? hfind, hrole⟩
  | _ => trivial

theorem Site.ok_of_rules {t : Table} {globals : List String}
    (hg : ∀ name, t.isGlobal name = true ↔ name ∈ globals) {s : Site}
    {root : Node} (hform : FunctionsFormed root) (hmem : s.node ∈ root.nodes)
    (hd : s.env.Distinct) (hfresh : s.Fresh) (hapart : s.Apart globals) (hshown : s.Shown) :
    s.Ok t := by
  obtain ⟨n, env⟩ := s
  cases n with
  | ident tag name =>
    obtain ⟨symbol, hshow, hrole⟩ := hshown
    exact ⟨symbol, (Env.shows_iff hd).mp hshow, hrole⟩
  | call tag callee args =>
    obtain ⟨symbol, hshow, hrole⟩ := hshown
    exact ⟨symbol, (Env.shows_iff hd).mp hshow, hrole⟩
  | var tag name type init => exact ⟨fun h => hapart h.2 ((hg name).mp h.1), hfresh⟩
  | function tag name params result body =>
    obtain ⟨hbody, hparams⟩ := hform tag name params result body hmem
    refine ⟨fun p hp => ?_, hfresh, .inr hbody⟩
    obtain ⟨ptag, pname, type, rfl⟩ := hparams p hp
    rfl
  | _ => trivial

section Program

variable {tag : Tag} {decls : List Node}

theorem programSites_nodes :
    ((programSites decls).map Site.node).Sublist (decls.flatMap Node.nodes) :=
  sitesAll_nodes decls (fun n _ => sites_nodes n) _

theorem mem_nodes_of_programSites {s : Site} (hs : s ∈ programSites decls) :
    s.node ∈ (Node.program tag decls).nodes := by
  rw [Node.nodes_eq]
  exact List.mem_append_right _ (programSites_nodes.subset (List.mem_map_of_mem hs))

theorem programEnv_distinct (h : (functionNames decls).Nodup) : (programEnv decls).Distinct := by
  refine List.forall_mem_cons.mpr ⟨?_, by simp [programEnv]⟩
  rwa [programEnv, List.map_reverse, functionSymbols_names, List.nodup_reverse]

/-- Every variable of a program is new exactly if no scope of it has a name twice. -/
theorem programSites_fresh (hform : FunctionsFormed (.program tag decls))
    (hfun : (functionNames decls).Nodup) :
    (∀ s ∈ programSites decls, s.Fresh) ↔
      (∀ name ∈ functionNames decls, name ∉ ownNames (.program tag decls)) ∧
        ∀ n ∈ (Node.program tag decls).nodes, (ownNames n).Nodup := by
  have hparts : ∀ d ∈ decls, FreshMeaning d := fun d hd => freshMeaning d (hform.part hd)
  have hscope : ((programEnv decls).extend (declaredAll decls)).FrameDistinct ↔
      (∀ name ∈ functionNames decls, name ∉ ownNames (.program tag decls)) ∧
        (ownNames (.program tag decls)).Nodup := by
    rw [Env.FrameDistinct, Env.extend_frame, programEnv, nodup_names_reverse, List.map_append,
      functionSymbols_names, List.nodup_append']
    simp only [hfun, true_and, ownNames, List.Disjoint]
    exact and_comm
  rw [programSites, freshMeaning_all decls hparts _ (programEnv_distinct hfun), hscope,
    Node.nodes_eq, and_assoc]
  simp [Node.isAbsent, Node.parts]

theorem programSites_distinct (hform : FunctionsFormed (.program tag decls))
    (hfun : (functionNames decls).Nodup) (hfresh : ∀ s ∈ programSites decls, s.Fresh) :
    ∀ s ∈ programSites decls, s.env.Distinct :=
  distinct_sitesAll decls (fun _ hd => hform.part hd)
    (fun d hd => distinct_sites d (hform.part hd)) _ (programEnv_distinct hfun) hfresh

/-- Resolution of a program ends well exactly under the rules of scoping. -/
theorem lexical_iff (hform : FunctionsFormed (.program tag decls)) {t : Table}
    (hg : ∀ name, t.isGlobal name = true ↔ name ∈ globalNames decls) :
    Lexical tag decls ↔
      (functionNames decls).Nodup ∧ ∀ s ∈ programSites decls, s.Ok t := by
  constructor
  · intro h
    have hfresh := (programSites_fresh hform h.functions_distinct).mpr
      ⟨h.functions_apart, h.scopes_distinct⟩
    have hdist := programSites_distinct hform h.functions_distinct hfresh
    exact ⟨h.functions_distinct, fun s hs => Site.ok_of_rules hg hform
      (mem_nodes_of_programSites hs) (hdist s hs) (hfresh s hs) (h.locals_apart s hs)
      (h.names_shown s hs)⟩
  · rintro ⟨hfun, hok⟩
    obtain ⟨hapart, hnodup⟩ := (programSites_fresh hform hfun).mp
      fun s hs => Site.fresh_of_ok (hok s hs)
    exact ⟨hfun, hapart, hnodup, fun s hs => Site.apart_of_ok hg (hok s hs),
      fun s hs => Site.shown_of_ok (hok s hs)⟩

theorem programSites_cover (hform : FunctionsFormed (.program tag decls)) {itag : Tag}
    {name : String} (hm : .ident itag name ∈ (Node.program tag decls).nodes) :
    ∃ env, ⟨.ident itag name, env⟩ ∈ programSites decls := by
  rw [Node.nodes_eq, List.mem_append] at hm
  rcases hm with hm | hm
  · simp [Node.isAbsent] at hm
  · exact sitesAll_cover decls (fun d hd => sites_cover d (hform.part hd)) _ hm

theorem programSites_bound_nodup (hu : (Node.program tag decls).Unshared) :
    ((programSites decls).filterMap Site.bound?).Nodup := by
  have hsub : (decls.flatMap Node.nodes).Sublist (Node.program tag decls).nodes := by
    rw [Node.nodes_eq]
    exact List.sublist_append_right _ _
  have hlabels := (programSites_nodes.trans hsub).filterMap Node.label?
  exact ((bound?_sublist _).trans hlabels).nodup hu

theorem programEnv_from : (programEnv decls).From (Node.program tag decls).nodes := by
  refine List.forall_mem_cons.mpr ⟨fun x hx => ?_, by simp [programEnv]⟩
  rw [programEnv, List.mem_reverse] at hx
  obtain ⟨d, hd, hx⟩ := List.mem_filterMap.mp hx
  cases d with
  | function ftag name params result body =>
    cases hx
    exact ⟨_, Node.mem_nodes_of_part hd (Node.mem_nodes_self rfl), .function⟩
  | _ => cases hx

theorem programSites_from (hform : FunctionsFormed (.program tag decls)) :
    ∀ s ∈ programSites decls, s.env.From (Node.program tag decls).nodes := by
  have hsub : ∀ d ∈ decls, ∀ m ∈ d.nodes, m ∈ (Node.program tag decls).nodes :=
    fun d hd m hm => Node.mem_nodes_of_part hd hm
  exact sitesAll_from decls hsub (fun d hd => sites_from d (hform.part hd) (hsub d hd)) _
    programEnv_from

theorem Env.mem_of_shows {env : Env} {name : String} {symbol : Symbol}
    (h : env.Shows name symbol) : ∃ f ∈ env.frame :: env.outer, symbol ∈ f := by
  obtain ⟨inner, scope, outer, hsplit, -, hmem, -⟩ := h
  exact ⟨scope, by rw [hsplit]; simp, hmem⟩

/-- **Resolution is lexical scoping.**  It accepts exactly the programs that keep the
rules, whatever was bound before; it binds every identifier to the one declaration that
shows at its place; and it knows the variables of the program scope and the functions by
name. -/
theorem resolveProgram_lexical (hform : WellFormed tag decls)
    (hu : (Node.program tag decls).Unshared) (b₀ : Bindings) :
    ((∃ t b, resolveProgram (.program tag decls) b₀ = .ok t b) ↔ Lexical tag decls) ∧
      ∀ t b, resolveProgram (.program tag decls) b₀ = .ok t b →
        (∀ itag name, .ident itag name ∈ (Node.program tag decls).nodes →
          ∃ env symbol, ⟨.ident itag name, env⟩ ∈ programSites decls ∧
            env.Shows name symbol ∧ (∀ other, env.Shows name other → other = symbol) ∧
            symbol.role ≠ .function ∧ ∃ d ∈ (Node.program tag decls).nodes, DeclaredBy symbol d ∧
              b.find? itag.label = d.decl?) ∧
        (∀ name, t.isGlobal name = true ↔ name ∈ globalNames decls) ∧
        ∀ name, t.isFunction name = true ↔ name ∈ functionNames decls := by
  have hok : ∀ t b, resolveProgram (.program tag decls) b₀ = .ok t b ↔
      t = (decls.foldl Surface.add {}).table ∧ Resolved decls t b₀ b :=
    fun t b => resolveProgram_eq_ok hform.kind hform.proper
  refine ⟨⟨?_, fun h => ?_⟩, fun t b h => ?_⟩
  · rintro ⟨t, b, h⟩
    obtain ⟨-, hres⟩ := (hok t b).mp h
    exact (lexical_iff hform.functions hres.isGlobal).mpr ⟨hres.functions, hres.sites_ok⟩
  · obtain ⟨hisFunction, hisGlobal⟩ := surface_table hform.proper
    obtain ⟨hfun, hsites⟩ := (lexical_iff hform.functions hisGlobal).mp h
    exact ⟨_, _, (hok _ _).mpr ⟨rfl, hisFunction, hisGlobal, hfun, rfl, hsites⟩⟩
  · obtain ⟨-, hres⟩ := (hok t b).mp h
    have hfresh := fun s hs => Site.fresh_of_ok (hres.sites_ok s hs)
    refine ⟨fun itag name hm => ?_, hres.isGlobal, hres.isFunction⟩
    obtain ⟨env, hs⟩ := programSites_cover hform.functions hm
    have hdist := programSites_distinct hform.functions hres.functions hfresh _ hs
    obtain ⟨symbol, hfind, hrole⟩ := hres.sites_ok _ hs
    have hshow := Env.shows_of_find? hfind
    obtain ⟨f, hf, hmem⟩ := Env.mem_of_shows hshow
    obtain ⟨d, hd, hby⟩ := programSites_from hform.functions _ hs f hf symbol hmem
    refine ⟨env, symbol, hs, hshow, fun other hother => ?_, hrole, d, hd, hby, ?_⟩
    · exact Option.some.inj (((Env.shows_iff hdist).mp hother).symm.trans hfind)
    · rw [hres.bindings, hby.decl?]
      exact record_find? _ _ (programSites_bound_nodup hu) itag name env symbol hs hfind

end Program

/-- A variable of the program scope, and a recursive function whose local is hidden by
another one in an inner compound. -/
def hidingDecls : List Node :=
  [.var (.nowhere 1 .varDecl) "g" .int (.number (.nowhere 2 .numberExpr) 1),
   .function (.nowhere 3 .functionDecl) "f" [.param (.nowhere 4 .paramDecl) "p" .int] .int
    (.compound (.nowhere 5 .compoundStmt)
      [.var (.nowhere 6 .varDecl) "x" .int (.ident (.nowhere 7 .identExpr) "g"),
       .compound (.nowhere 8 .compoundStmt)
        [.var (.nowhere 9 .varDecl) "x" .int (.ident (.nowhere 10 .identExpr) "p"),
         .print (.nowhere 11 .printStmt) (.ident (.nowhere 12 .identExpr) "x")],
       .ret (.nowhere 13 .returnStmt)
        (.call (.nowhere 14 .callExpr) "f" [.ident (.nowhere 15 .identExpr) "x"])])]

theorem hidingDecls_lexical :
    WellFormed (Tag.nowhere 0 .program) hidingDecls ∧
      (Node.program (Tag.nowhere 0 .program) hidingDecls).Unshared ∧
      Lexical (Tag.nowhere 0 .program) hidingDecls := by
  have hform : WellFormed (Tag.nowhere 0 .program) hidingDecls := by
    refine ⟨rfl, ?_, ?_⟩
    · simp [hidingDecls, IsProper, Node.isAbsent, Node.Agrees, Node.tag?, Node.payloadKind?,
        Tag.nowhere]
    · intro tag name params result body h
      simp [hidingDecls, Node.nodes, Node.walk, Node.walkAll] at h
      obtain ⟨-, -, rfl, -, rfl⟩ := h
      simp
  have hu : (Node.program (Tag.nowhere 0 .program) hidingDecls).Unshared := by
    unfold Node.Unshared
    decide
  exact ⟨hform, hu, (resolveProgram_lexical hform hu {}).1.mp ⟨_, _, rfl⟩⟩

end Isel.Scope
