import Isel.Proofs.Agreement

/-!
# When selection can go on

A variable without initializer gets its slot when input is first read into it, and every
other variable when it is declared.  So a variable whose value is asked for may lack a slot
only if it is one of the first kind, the labels of which are called `U` here.

`Goes su U us L s r` says of a part of a program with the uses `us` of identifiers and the
labels `L`, lowered from the state `s` with the outcome `r`: it ends well exactly if all uses
are `Ready`, and then what is held has changed as the uses say (`Kept`).  Parts are put
together with `Goes.bind`; steps that touch no slot are `Quiet`.

`Stands su U env ns s` collects what is known where the nodes `ns` are lowered next, and its
lemmas say how this is handed on along a list of nodes and into the parts of a node.
-/

namespace Isel.Select

open Isel.Flow Isel.Syntax Isel.Proofs Isel.Scope
open Isel.Syntax.Node (Use uses usesAll)

/-! ## Who has a slot -/

/-- The node has a slot. -/
def Held (s : State) (l : Label) : Prop := some l ∈ s.slots.owners

theorem exists_slot_of_held {s : State} {l : Label} (h : Held s l) :
    ∃ slot, s.slots.slot? (some l) = some slot := by
  rw [← Option.isSome_iff_exists, Slots.slot?, List.findIdx?_isSome, List.any_eq_true]
  exact ⟨some l, h, by simp⟩

theorem held_of_slot? {s : State} {l : Label} {slot : Slot}
    (h : s.slots.slot? (some l) = some slot) : Held s l := by
  obtain ⟨hlt, hmatch, -⟩ := List.findIdx?_eq_some_iff_getElem.mp h
  rw [beq_iff_eq] at hmatch
  exact List.mem_iff_getElem.mpr ⟨slot, hlt, hmatch⟩

theorem held_withOwner {s : State} {l k : Label} :
    Held (s.withOwner l) k ↔ Held s k ∨ k = l := by
  simp [Held, State.withOwner, Slots.add]

section Uses

variable (su : Setup) (U : Label → Prop)

/-- Input is read into the variable at one of the uses. -/
def Scanned (us : List Use) (l : Label) : Prop :=
  ∃ tag name decl, .target tag name ∈ us ∧ su.bindings.find? tag.label = some decl ∧
    decl.label = l

/-- A variable of `U` whose value is asked for has a slot at the start, or input is read
into it at an earlier use. -/
def Ready (s : State) (us : List Use) : Prop :=
  ∀ pre tag name decl post, us = pre ++ .value tag name :: post →
    su.bindings.find? tag.label = some decl → U decl.label →
      Held s decl.label ∨ Scanned su pre decl.label

/-- What the steps from `s` to `s'` keep, when they go through the uses `us` and the nodes
with the labels `L`: a variable of `U` has got a slot if input was read into it, and of the
others only those of `L` may have got one. -/
structure Kept (us : List Use) (L : List Label) (s s' : State) : Prop where
  functions : s'.module.functions = s.module.functions
  signatures : s'.signatures = s.signatures
  held : ∀ l, Held s l → Held s' l
  scanned : ∀ l, Scanned su us l → Held s' l
  only : ∀ l, Held s' l → Held s l ∨ (U l ∧ Scanned su us l) ∨ (¬U l ∧ l ∈ L)

/-- The outcome is good if the uses are ready, and then keeps what it has to; otherwise it
is the failure to find the slot of a variable. -/
def Goes {α : Type} (us : List Use) (L : List Label) (s : State) :
    EStateM.Result Stop State α → Prop
  | .ok _ s' => Ready su U s us ∧ Kept su U us L s s'
  | .error e _ => ¬Ready su U s us ∧ ∃ pos kind name, e = .fault ⟨pos, .slot (.unlowered kind name)⟩

end Uses

section Calculus

variable {su : Setup} {U : Label → Prop} {us vs : List Use} {L M : List Label}
  {s s₁ s₂ : State} {α β : Type}

theorem scanned_append {l : Label} :
    Scanned su (us ++ vs) l ↔ Scanned su us l ∨ Scanned su vs l := by
  constructor
  · rintro ⟨tag, name, decl, hmem, h⟩
    rcases List.mem_append.mp hmem with hmem | hmem
    · exact .inl ⟨tag, name, decl, hmem, h⟩
    · exact .inr ⟨tag, name, decl, hmem, h⟩
  · rintro (⟨tag, name, decl, hmem, h⟩ | ⟨tag, name, decl, hmem, h⟩)
    · exact ⟨tag, name, decl, List.mem_append_left _ hmem, h⟩
    · exact ⟨tag, name, decl, List.mem_append_right _ hmem, h⟩

theorem not_scanned_nil {l : Label} : ¬Scanned su [] l := by
  rintro ⟨_, _, _, hmem, -⟩
  simp at hmem

theorem Kept.of_same (hslots : s₁.slots = s.slots)
    (hfun : s₁.module.functions = s.module.functions) (hsig : s₁.signatures = s.signatures) :
    Kept su U [] L s s₁ := by
  have hheld : ∀ l, Held s₁ l ↔ Held s l := fun l => by rw [Held, hslots, Held]
  exact ⟨hfun, hsig, fun l => (hheld l).mpr, fun l h => absurd h not_scanned_nil,
    fun l h => .inl ((hheld l).mp h)⟩

theorem Kept.refl (s : State) : Kept su U [] L s s := .of_same rfl rfl rfl

theorem Kept.mono (h : Kept su U us L s s₁) (hsub : ∀ l ∈ L, l ∈ M) : Kept su U us M s s₁ where
  functions := h.functions
  signatures := h.signatures
  held := h.held
  scanned := h.scanned
  only l hl := (h.only l hl).imp_right fun h => h.imp_right fun h => ⟨h.1, hsub l h.2⟩

theorem Kept.trans (h₁ : Kept su U us L s s₁) (h₂ : Kept su U vs M s₁ s₂) :
    Kept su U (us ++ vs) (L ++ M) s s₂ where
  functions := h₂.functions.trans h₁.functions
  signatures := h₂.signatures.trans h₁.signatures
  held l h := h₂.held l (h₁.held l h)
  scanned l h := by
    rcases scanned_append.mp h with h | h
    · exact h₂.held l (h₁.scanned l h)
    · exact h₂.scanned l h
  only l h := by
    rw [scanned_append, List.mem_append]
    rcases h₂.only l h with h | ⟨hU, h⟩ | ⟨hU, h⟩
    · rcases h₁.only l h with h | ⟨hU, h⟩ | ⟨hU, h⟩
      · exact .inl h
      · exact .inr (.inl ⟨hU, .inl h⟩)
      · exact .inr (.inr ⟨hU, .inl h⟩)
    · exact .inr (.inl ⟨hU, .inr h⟩)
    · exact .inr (.inr ⟨hU, .inr h⟩)

/-- A variable of `U` has a slot behind the uses if it had one or input was read into it. -/
theorem Kept.held_iff (h : Kept su U us L s s₁) {l : Label} (hU : U l) :
    Held s₁ l ↔ Held s l ∨ Scanned su us l := by
  constructor
  · intro hl
    rcases h.only l hl with hl | ⟨-, hl⟩ | ⟨hno, -⟩
    · exact .inl hl
    · exact .inr hl
    · exact absurd hU hno
  · rintro (hl | hl)
    · exact h.held l hl
    · exact h.scanned l hl

theorem ready_nil : Ready su U s [] := by
  intro pre tag name decl post he
  simp at he

/-- **Uses one after the other** are ready if the first ones are, and the others are behind
them. -/
theorem ready_append (h : Kept su U us L s s₁) :
    Ready su U s (us ++ vs) ↔ Ready su U s us ∧ Ready su U s₁ vs := by
  constructor
  · intro hr
    refine ⟨fun pre tag name decl post he hd hU => ?_, fun pre tag name decl post he hd hU => ?_⟩
    · exact hr pre tag name decl (post ++ vs) (by rw [he]; simp) hd hU
    · have hsplit := hr (us ++ pre) tag name decl post (by rw [he]; simp) hd hU
      rwa [scanned_append, ← or_assoc, ← h.held_iff hU] at hsplit
  · rintro ⟨hus, hvs⟩ pre tag name decl post he hd hU
    -- The use belongs to the first list or to the second one.
    rcases List.append_eq_append_iff.mp he with ⟨mid, rfl, he'⟩ | ⟨mid, rfl, he'⟩
    · have hready := hvs mid tag name decl post he' hd hU
      rwa [h.held_iff hU, or_assoc, ← scanned_append] at hready
    · cases mid with
      | nil =>
        rw [List.append_nil] at h
        have hready := hvs [] tag name decl post he'.symm hd hU
        rw [h.held_iff hU] at hready
        exact hready.resolve_right not_scanned_nil
      | cons u mid =>
        cases he'
        exact hus pre tag name decl mid rfl hd hU

theorem Goes.of_ok {r : EStateM.Result Stop State α} {a : α} (h : r = .ok a s₁)
    (hr : Ready su U s us) (hk : Kept su U us L s s₁) : Goes su U us L s r := by
  rw [h]
  exact ⟨hr, hk⟩

theorem Goes.mono {r : EStateM.Result Stop State α} (h : Goes su U us L s r)
    (hsub : ∀ l ∈ L, l ∈ M) : Goes su U us M s r := by
  cases r with
  | ok a s' => exact ⟨h.1, h.2.mono hsub⟩
  | error e s' => exact h

/-- **Steps one after the other.** -/
theorem Goes.bind {x : Selection α} {f : α → Selection β} (hx : Goes su U us L s (x s))
    (hf : ∀ a s₁, x s = .ok a s₁ → Kept su U us L s s₁ → Goes su U vs M s₁ (f a s₁)) :
    Goes su U (us ++ vs) (L ++ M) s ((x >>= f) s) := by
  cases hrun : x s with
  | error e s' =>
    rw [hrun] at hx
    rw [bind_of_error hrun]
    refine ⟨fun hr => hx.1 fun pre tag name decl post he => ?_, hx.2⟩
    exact hr pre tag name decl (post ++ vs) (by rw [he]; simp)
  | ok a s₁ =>
    rw [hrun] at hx
    obtain ⟨hready, hkept⟩ := hx
    have hnext := hf a s₁ hrun hkept
    rw [bind_of_ok hrun]
    cases hrun₂ : f a s₁ with
    | ok b s₂ =>
      rw [hrun₂] at hnext
      exact ⟨(ready_append hkept).mpr ⟨hready, hnext.1⟩, hkept.trans hnext.2⟩
    | error e s₂ =>
      rw [hrun₂] at hnext
      exact ⟨fun hr => hnext.1 ((ready_append hkept).mp hr).2, hnext.2⟩

end Calculus

/-! ## Steps that always go on -/

/-- The steps end well, and leave the slots and the functions alone. -/
structure Quiet {α : Type} (x : Selection α) : Prop where
  runs : ∀ s, ∃ a s', x s = .ok a s' ∧ s'.slots = s.slots ∧
    s'.module.functions = s.module.functions ∧ s'.signatures = s.signatures

section Quiet

variable {su : Setup} {U : Label → Prop} {us : List Use} {L : List Label} {s : State} {α β : Type}

theorem quiet_pure (a : α) : Quiet (pure a) := ⟨fun s => ⟨a, s, rfl, rfl, rfl, rfl⟩⟩

theorem Quiet.bind {x : Selection α} {f : α → Selection β} (hx : Quiet x)
    (hf : ∀ a, Quiet (f a)) : Quiet (x >>= f) := by
  refine ⟨fun s => ?_⟩
  obtain ⟨a, s₁, hrun, hslots, hfun, hsig⟩ := hx.runs s
  obtain ⟨b, s₂, hrun₂, hslots₂, hfun₂, hsig₂⟩ := (hf a).runs s₁
  exact ⟨b, s₂, (bind_of_ok hrun).trans hrun₂, hslots₂.trans hslots, hfun₂.trans hfun,
    hsig₂.trans hsig⟩

theorem Quiet.ite {c : Prop} [Decidable c] {x y : Selection α} (hx : Quiet x) (hy : Quiet y) :
    Quiet (if c then x else y) := by
  split
  · exact hx
  · exact hy

theorem Quiet.goes {x : Selection α} (h : Quiet x) : Goes su U [] [] s (x s) := by
  obtain ⟨a, s', hrun, hslots, hfun, hsig⟩ := h.runs s
  exact .of_ok hrun ready_nil (.of_same hslots hfun hsig)

theorem Goes.quiet_bind {x : Selection α} {f : α → Selection β} (hx : Goes su U [] [] s (x s))
    (hf : ∀ a s₁, Kept su U [] [] s s₁ → Goes su U us L s₁ (f a s₁)) :
    Goes su U us L s ((x >>= f) s) := hx.bind fun a s₁ _ => hf a s₁

theorem Goes.bind_quiet {x : Selection α} {f : α → Selection β} (hx : Goes su U us L s (x s))
    (hf : ∀ a, Quiet (f a)) : Goes su U us L s ((x >>= f) s) := by
  have h := hx.bind fun a s₁ _ _ => (hf a).goes
  rwa [List.append_nil, List.append_nil] at h

theorem quiet_emit (pt : Point) (op : Machine.Opcode) (args : List Operand) :
    Quiet (emit pt op args) :=
  ⟨fun s => ⟨_, _, rfl, rfl, (pt.emit_rest s.module ⟨op, args⟩).2.1, rfl⟩⟩

theorem quiet_remark (w : Settings.Warning) (pos : Source.Position) (message : String) :
    Quiet (remark su w pos message) :=
  ⟨fun s => ⟨_, _, remark_apply .., by simp, by simp, by simp⟩⟩

theorem quiet_literalFor (bytes : List UInt8) : Quiet (literalFor su bytes) := by
  refine ⟨fun s => ?_⟩
  obtain ⟨-, more, index, hmore⟩ := literalEntry_spec su bytes s.module
  exact ⟨_, _, literalFor_apply .., rfl, by simp [hmore], rfl⟩

theorem quiet_operatorOpcode {op : Token} (h : op.isBinary = true) (pos : Source.Position) :
    Quiet (operatorOpcode su pos op) := by
  rw [← opcodeOf?_isSome, Option.isSome_iff_exists] at h
  obtain ⟨opcode, hop⟩ := h
  rw [operatorOpcode, hop]
  exact .ite ((quiet_remark ..).bind fun _ => quiet_pure _) (quiet_pure _)

/-- All requests are answered. -/
def Answers (su : Setup) : Prop := ∀ served request, ∃ out, su.hooks.answer served request = .ok out

theorem functions_foldl_emit (pt : Point) (out : List Instr) (m : Module) :
    (out.foldl (fun m i => pt.emit m i) m).functions = m.functions := by
  induction out generalizing m with
  | nil => rfl
  | cons i out ih => exact (ih (pt.emit m i)).trans (pt.emit_rest m i).2.1

theorem quiet_serve (h : Answers su) (pos : Source.Position) (pt : Point) (request : Request) :
    Quiet (serve su pos pt request) := by
  refine ⟨fun s => ?_⟩
  obtain ⟨out, hout⟩ := h s.served request
  exact ⟨⟨⟩, _, serve_eq_ok.mpr ⟨out, hout, rfl⟩, rfl, functions_foldl_emit pt out s.module, rfl⟩

theorem quiet_emitCall (h : Answers su) (pt : Point) (tag : Tag) (callee : String)
    (entry : Option BlockRef) (args : List Slot) (slot : Slot) :
    Quiet (emitCall su pt tag callee entry args slot) := by
  have hresult : Quiet (hasResult callee) := ⟨fun s => ⟨_, s, rfl, rfl, rfl, rfl⟩⟩
  have hcall : Quiet (do
      emit pt .call [.block entry]
      if ← hasResult callee then serve su tag.pos pt (.resultIn slot) : Selection Unit) :=
    (quiet_emit ..).bind fun _ => hresult.bind fun _ => .ite (quiet_serve h ..) (quiet_pure _)
  exact .ite ((quiet_serve h ..).bind fun _ => hcall) hcall

theorem quiet_openBlock (r : BlockRef) : Quiet (openBlock r) := by
  refine ⟨fun s => ⟨_, _, openBlock_apply r s, rfl, ?_, rfl⟩⟩
  have hadd := (s.module.addBlock_rest r.graph).2.1
  simp only [openedModule]
  split
  · exact hadd
  · exact hadd

theorem quiet_openBody {tag : Tag} (h : tag.kind = .compoundStmt) (r : BlockRef) :
    Quiet (openBody tag r) := by
  rw [openBody, if_pos h]
  exact quiet_openBlock r

theorem quiet_jump (source target : BlockRef) : Quiet (jump source target) := by
  refine ⟨fun s => ⟨⟨⟩, _, rfl, rfl, ?_, rfl⟩⟩
  simp only
  split <;> rfl

theorem quiet_emitBranch (source : BlockRef) (cond : Slot) (yes no : BlockRef) :
    Quiet (emitBranch source cond yes no) :=
  (quiet_emit ..).bind fun _ => (quiet_jump ..).bind fun _ => quiet_jump ..

theorem quiet_remarkUnreachable {n : Node} (h : n.isAbsent = false) :
    Quiet (remarkUnreachable su n) := by
  rw [remarkUnreachable]
  cases n with
  | absent => cases h
  | _ => exact quiet_remark ..

end Quiet

/-! ## Where the parts of a program stand -/

/-- The label of a node is in `U` exactly if the node is a variable without initializer. -/
def Marked (U : Label → Prop) (n : Node) : Prop :=
  ∀ tag, n.tag? = some tag → (U tag.label ↔ ∃ name type, n = .var tag name type .absent)

/-- The state has what selection looks up of a symbol: a function by its name, and a
variable by its slot unless the variable is of `U`. -/
def Offers (U : Label → Prop) (s : State) (x : Symbol) : Prop :=
  (x.role = .function → (s.module.function? x.name).isSome = true) ∧
    (x.role ≠ .function → U x.decl.label ∨ Held s x.decl.label)

/-- What holds of the state `s` and the open scopes `env` where the nodes `ns` are lowered
next: resolution is seen at their places, the symbols in scope are offered, and none of
the nodes has a slot. -/
structure Stands (su : Setup) (U : Label → Prop) (env : Env) (ns : List Node) (s : State) :
    Prop where
  seen : ∀ site ∈ sitesAll env ns, Seen su site
  offers : env.All (Offers U s)
  tree : ∀ n ∈ ns, ∀ m ∈ n.nodes, m.Agrees ∧ Marked U m
  nodup : (ns.flatMap Node.labels).Nodup
  fresh : ∀ l ∈ ns.flatMap Node.labels, ¬U l → ¬Held s l

section Stands

variable {su : Setup} {U : Label → Prop} {us : List Use} {L : List Label} {env : Env} {n : Node}
  {ns : List Node} {tag : Tag} {s s₁ : State}

theorem Offers.kept {x : Symbol} (h : Offers U s x) (hk : Kept su U us L s s₁) :
    Offers U s₁ x := by
  refine ⟨fun hr => ?_, fun hr => (h.2 hr).imp_right (hk.held _)⟩
  rw [Module.function?, hk.functions]
  exact h.1 hr

theorem Stands.offers_kept (h : Stands su U env ns s) (hk : Kept su U us L s s₁) :
    env.All (Offers U s₁) := Env.All.mono h.offers fun _ hx => hx.kept hk

theorem fresh_kept {M : List Label} (h : ∀ l ∈ M, ¬U l → ¬Held s l)
    (hk : Kept su U us L s s₁) (hL : ∀ l ∈ L, l ∉ M) : ∀ l ∈ M, ¬U l → ¬Held s₁ l := by
  intro l hl hU hheld
  rcases hk.only l hheld with hheld | ⟨hU', -⟩ | ⟨-, hmem⟩
  · exact h l hl hU hheld
  · exact hU hU'
  · exact hL l hmem hl

theorem Stands.quiet (h : Stands su U env ns s) (hk : Kept su U [] [] s s₁) :
    Stands su U env ns s₁ :=
  ⟨h.seen, h.offers_kept hk, h.tree, h.nodup, fresh_kept h.fresh hk (by simp)⟩

theorem Stands.head (h : Stands su U env (n :: ns) s) : Stands su U env [n] s where
  seen site hs := h.seen site (by
    rw [sitesAll, sitesAll, List.append_nil] at hs
    exact List.mem_append_left _ hs)
  offers := h.offers
  tree m hm := h.tree m (by rw [List.mem_singleton.mp hm]; simp)
  nodup := by
    have hnodup := h.nodup
    rw [List.flatMap_cons] at hnodup
    simpa using hnodup.of_append_left
  fresh l hl := h.fresh l (by
    rw [List.flatMap_singleton] at hl
    exact List.mem_append_left _ hl)

theorem Stands.tail (h : Stands su U env (n :: ns) s) (hk : Kept su U us n.labels s s₁)
    (hdecl : ∀ x ∈ declared n, Offers U s₁ x) :
    Stands su U (env.extend (declared n)) ns s₁ := by
  have hnodup := h.nodup
  rw [List.flatMap_cons, List.nodup_append'] at hnodup
  obtain ⟨-, hns, hdisjoint⟩ := hnodup
  refine ⟨fun site hs => h.seen site ?_, (h.offers_kept hk).extend hdecl,
    fun m hm => h.tree m (List.mem_cons_of_mem n hm), hns, ?_⟩
  · rw [sitesAll]
    exact List.mem_append_right _ hs
  · refine fresh_kept (fun l hl => h.fresh l ?_) hk fun l hl => hdisjoint hl
    exact List.mem_append_right _ hl

/-- Below a node stand nodes of its tree, in the scopes that it opens for them. -/
theorem Stands.below {inner : Env} {ms : List Node} (h : Stands su U env [n] s)
    (hsub : (ms.flatMap Node.labels).Sublist n.labels)
    (hnodes : ∀ p ∈ ms, ∀ m ∈ p.nodes, m ∈ n.nodes) (hk : Kept su U us L s s₁)
    (hL : ∀ l ∈ L, l ∉ ms.flatMap Node.labels)
    (hseen : ∀ site ∈ sitesAll inner ms, Seen su site) (hoffers : inner.All (Offers U s₁)) :
    Stands su U inner ms s₁ := by
  have hnodup := h.nodup
  rw [List.flatMap_singleton] at hnodup
  refine ⟨hseen, hoffers, fun p hp m hm => h.tree n (by simp) m (hnodes p hp m hm),
    hsub.nodup hnodup, fresh_kept (fun l hl => h.fresh l ?_) hk hL⟩
  rw [List.flatMap_singleton]
  exact hsub.subset hl

theorem Stands.find? (h : Stands su U env ns s) {name : String} {x : Symbol}
    (hfind : env.find? name = some x) : Offers U s x ∧ x.name = name := by
  obtain ⟨⟨f, hf, hx⟩, hname⟩ := Env.mem_of_find? hfind
  exact ⟨h.offers f hf x hx, hname⟩

theorem Stands.seen_one (h : Stands su U env [n] s) : ∀ site ∈ sites env n, Seen su site := by
  have hseen := h.seen
  rwa [sitesAll, sitesAll, List.append_nil] at hseen

theorem Stands.self_notMem (h : Stands su U env [n] s) :
    ∀ l ∈ n.label?.toList, l ∉ n.parts.flatMap Node.labels := by
  have hnodup := h.nodup
  rw [List.flatMap_singleton, Node.labels_eq, List.nodup_append'] at hnodup
  exact fun l hl => hnodup.2.2 hl

/-- The parts of a node that opens no scope stand where it stands, also when the node itself
has got its slot. -/
theorem Stands.parts (h : Stands su U env [n] s) (hplain : isPlain n = true)
    (hk : Kept su U us n.label?.toList s s₁) : Stands su U env n.parts s₁ := by
  refine h.below (Node.parts_sublist n) (fun p hp m hm => Node.mem_nodes_of_part hp hm) hk
    h.self_notMem (fun site hs => h.seen_one site ?_) (h.offers_kept hk)
  rw [sites_plain hplain]
  exact List.mem_cons_of_mem _ hs

theorem Stands.kind (h : Stands su U env [n] s) (htag : n.tag? = some tag) :
    n.payloadKind? = some tag.kind := by
  have hagree := (h.tree n (by simp) n (Node.mem_nodes_self (Node.isAbsent_of_tag? htag))).1
  rw [Node.Agrees, htag] at hagree
  exact hagree.symm

theorem Stands.kind_isExpr (h : Stands su U env [n] s) (hn : n.IsExpr)
    (htag : n.tag? = some tag) : tag.kind.isExpr = true := by
  have hk := h.kind htag
  cases hn <;> rw [← Option.some.inj hk] <;> rfl

theorem Stands.marked (h : Stands su U env [n] s) (htag : n.tag? = some tag) :
    U tag.label ↔ ∃ name type, n = .var tag name type .absent :=
  (h.tree n (by simp) n (Node.mem_nodes_self (Node.isAbsent_of_tag? htag))).2 tag htag

/-- A node that is no variable without initializer has no slot when it is lowered. -/
theorem Stands.not_held (h : Stands su U env [n] s) (htag : n.tag? = some tag)
    (hU : ¬U tag.label) : ¬Held s tag.label := by
  refine h.fresh tag.label ?_ hU
  rw [List.flatMap_singleton]
  exact Node.label_mem_labels htag

end Stands

end Isel.Select
