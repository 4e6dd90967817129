import Isel.Proofs.Layout

/-!
# Statements are laid out

While a statement is lowered, its code is not yet complete: a test with its jumps is
added to a block when the blocks behind it are known.  So `selectStmt_laid` speaks of
the blocks as they are in the end (`B`), and asks that those which the statement wrote
stay as it left them, but for what comes behind the code of the last one.
-/

namespace Isel.Select

open Isel.Flow Isel.Syntax Isel.Proofs

/-! ## Where statements write -/

def Copies (code : List Instr) : Prop :=
  ∀ i ∈ code, ∃ slot source, i = ⟨.mov, [.slot slot, .slot source]⟩

/-- The steps from `s` to `s'` wrote behind the code of block `i` of the graph `g`, which
was the last one, and into new blocks up to `j`, and nowhere else, but for copies in the
global sequence. -/
structure Wrote (g i j : Nat) (s s' : State) : Prop where
  le : i ≤ j
  count : s'.module.count g = j + 1
  counts : ∀ q, q ≠ g → s'.module.count q = s.module.count q
  before : ∀ k, k < i → s'.module.code ⟨g, k⟩ = s.module.code ⟨g, k⟩
  start : s.module.code ⟨g, i⟩ <+: s'.module.code ⟨g, i⟩
  others : ∀ r : BlockRef, r.graph ≠ g → s'.module.code r = s.module.code r
  globals : ∃ c, Copies c ∧ s'.module.globals = s.module.globals ++ c
  graphs : s'.module.graphs.length = s.module.graphs.length
  functions : s'.module.functions = s.module.functions
  signatures : s'.signatures = s.signatures
  owners : s.slots.owners <+: s'.slots.owners
  literals : s.module.literals <+: s'.module.literals

section Wrote

variable {g i j k : Nat} {s s₁ s' : State}

theorem Wrote.grows (h : Wrote g i j s s') : Grows s s' :=
  ⟨h.owners, h.literals, h.functions ▸ List.prefix_rfl, h.signatures ▸ List.prefix_rfl⟩

theorem Wrote.declared (h : Wrote g i j s s') (hd : s.Declared) : s'.Declared := by
  rw [State.Declared, h.functions, h.signatures]
  intro f hf
  obtain ⟨hpos, hsig⟩ := hd f hf
  refine ⟨?_, hsig⟩
  by_cases hg : f.graph = g
  · rw [hg, h.count]
    exact Nat.succ_pos j
  · rwa [h.counts f.graph hg]

theorem Wrote.trans (h₁ : Wrote g i k s s₁) (h₂ : Wrote g k j s₁ s') : Wrote g i j s s' where
  le := Nat.le_trans h₁.le h₂.le
  count := h₂.count
  counts q hq := (h₂.counts q hq).trans (h₁.counts q hq)
  before l hl := (h₂.before l (Nat.lt_of_lt_of_le hl h₁.le)).trans (h₁.before l hl)
  start := by
    rcases Nat.lt_or_eq_of_le h₁.le with hlt | rfl
    · rw [h₂.before i hlt]
      exact h₁.start
    · exact h₁.start.trans h₂.start
  others r hr := (h₂.others r hr).trans (h₁.others r hr)
  globals := by
    obtain ⟨c, hc, hglob₁⟩ := h₁.globals
    obtain ⟨d, hd, hglob₂⟩ := h₂.globals
    exact ⟨c ++ d, List.forall_mem_append.mpr ⟨hc, hd⟩, by rw [hglob₂, hglob₁, List.append_assoc]⟩
  graphs := h₂.graphs.trans h₁.graphs
  functions := h₂.functions.trans h₁.functions
  signatures := h₂.signatures.trans h₁.signatures
  owners := h₁.owners.trans h₂.owners
  literals := h₁.literals.trans h₂.literals

theorem Emitted.code_here {r : BlockRef} {c : List Instr} (h : Emitted (.block r) c s s') :
    s'.module.code r = s.module.code r ++ c := h.here

theorem Emitted.code_other {r q : BlockRef} {c : List Instr} (h : Emitted (.block r) c s s')
    (hq : q ≠ r) : s'.module.code q = s.module.code q :=
  h.elsewhere (.block q) fun he => hq (Point.block.inj he)

theorem blockRef_ne (h : i ≠ k) : (⟨g, i⟩ : BlockRef) ≠ ⟨g, k⟩ :=
  fun he => h (BlockRef.mk.inj he).2

theorem Emitted.code_ne {c : List Instr} (h : Emitted (.block ⟨g, k⟩) c s s') {l : Nat}
    (hl : l ≠ k) : s'.module.code ⟨g, l⟩ = s.module.code ⟨g, l⟩ := h.code_other (blockRef_ne hl)

theorem Emitted.globals {r : BlockRef} {c : List Instr} (h : Emitted (.block r) c s s') :
    s'.module.globals = s.module.globals := h.elsewhere .globals (by simp)

theorem Opened.code_block (h : Opened g s s') (q : BlockRef) :
    s'.module.code q = s.module.code q := h.code (.block q)

theorem Opened.globals (h : Opened g s s') : s'.module.globals = s.module.globals :=
  h.code .globals

theorem copies_none {gs gs' : List Instr} (h : gs' = gs) : ∃ c, Copies c ∧ gs' = gs ++ c :=
  ⟨[], by simp [Copies], by rw [h, List.append_nil]⟩

theorem Emitted.wrote {c : List Instr} (h : Emitted (.block ⟨g, i⟩) c s s')
    (hcount : s.module.count g = i + 1) : Wrote g i i s s' where
  le := Nat.le_refl i
  count := (h.count g).trans hcount
  counts q _ := h.count q
  before k hk := h.code_ne (Nat.ne_of_lt hk)
  start := ⟨c, h.code_here.symm⟩
  others r hr := h.code_other fun he => hr (by rw [he])
  globals := copies_none h.globals
  graphs := h.graphs
  functions := h.functions
  signatures := h.signatures
  owners := h.owners
  literals := h.literals

theorem Opened.wrote (h : Opened g s s') (hcount : s.module.count g = i + 1) :
    Wrote g i (i + 1) s s' where
  le := Nat.le_succ i
  count := by rw [h.count, if_pos rfl, hcount]
  counts q hq := by rw [h.count, if_neg hq]
  before k _ := h.code_block ⟨g, k⟩
  start := ⟨[], (List.append_nil _).trans (h.code_block ⟨g, i⟩).symm⟩
  others r _ := h.code_block r
  globals := copies_none h.globals
  graphs := h.graphs
  functions := h.functions
  signatures := h.signatures
  owners := h.slots ▸ List.prefix_rfl
  literals := h.literals ▸ List.prefix_rfl

end Wrote

mutual

/-- No variable of the statement is taken for one of the program scope. -/
def Local (su : Setup) : Node → Prop
  | .var _ name _ _ => su.isGlobal name = false
  | .compound _ stmts => LocalAll su stmts
  | .ifThen _ _ body | .loop _ _ body => Local su body
  | .absent | .bare _ | .program .. | .function .. | .param .. | .binary .. | .boolean ..
  | .call .. | .ident .. | .number .. | .string .. | .print .. | .ret .. | .scan .. => True

/-- No variable of the statements is taken for one of the program scope. -/
def LocalAll (su : Setup) : List Node → Prop
  | [] => True
  | n :: rest => Local su n ∧ LocalAll su rest

end

/-- The blocks of a graph hold in the end what they hold in `s'`, from block `i` up to the
block before `j`. -/
def Settled (g : Nat) (B : Blocks) (i j : Nat) (s' : State) : Prop :=
  ∀ k, i ≤ k → k < j → B k = s'.module.code ⟨g, k⟩

/-- What selection of a statement comes to when it ends well: wherever the code behind
it ends up, its own code is where it should be. -/
def StmtLaid (su : Setup) (g : Nat) (n : Node) : Prop :=
  ∀ (i : Nat) (s s' : State) (r : BlockRef), selectStmt su n ⟨g, i⟩ s = .ok r s' →
    s.module.count g = i + 1 → s.Declared →
      ∃ j, r = ⟨g, j⟩ ∧ Wrote g i j s s' ∧ Adds (claims su n) s s' ∧
        (Local su n → s'.module.globals = s.module.globals) ∧
        ∀ fin B rest rest', Grows s' fin → Settled g B i j s' →
          B i = s.module.code ⟨g, i⟩ ++ rest → B j = s'.module.code ⟨g, j⟩ ++ rest' →
            StmtAt su fin g B n i rest j rest'

theorem openBody_eq_ok {tag : Tag} {g i k : Nat} {s s' : State} {r : BlockRef}
    (hcount : s.module.count g = i + 1) (h : openBody tag ⟨g, k⟩ s = .ok r s') :
    r = ⟨g, i + 1⟩ ∧ Opened g s s' := by
  have hpos : 0 < s.module.count g := by omega
  have hopened := opened_openedModule (r := ⟨g, k⟩) hpos
  rw [openBody] at h
  split at h
  · rw [openBlock_apply] at h
    cases h
    exact ⟨by rw [hcount], hopened⟩
  · cases h

/-- A body begins in a new block, from whichever block of its graph it is entered. -/
theorem selectBody_eq_ok {su : Setup} {body : Node} {g i k : Nat} {s s' : State}
    {r r' : BlockRef} (hcount : s.module.count g = i + 1)
    (h : selectBody su body ⟨g, k⟩ s = .ok (r, r') s') :
    r = ⟨g, i + 1⟩ ∧ ∃ tag stmts s₁, body = .compound tag stmts ∧ Opened g s s₁ ∧
      selectStmts su false stmts ⟨g, i + 1⟩ s₁ = .ok r' s' := by
  cases body with
  | compound tag stmts =>
    rw [selectBody, bind_eq_ok] at h
    obtain ⟨entry, s₁, hopen, h⟩ := h
    obtain ⟨rfl, hspec⟩ := openBody_eq_ok hcount hopen
    rw [bind_eq_ok] at h
    obtain ⟨r₂, s₂, hstmts, h⟩ := h
    cases h
    exact ⟨rfl, tag, stmts, s₁, rfl, hspec, hstmts⟩
  | absent => simp [selectBody, Node.tag?] at h
  | _ =>
    simp only [selectBody, Node.tag?] at h
    rw [bind_eq_ok] at h
    obtain ⟨_, _, -, h⟩ := h
    cases h

/-- A remark about a statement behind a return changes nothing that counts. -/
theorem remarkUnreachable_eq_ok {su : Setup} {n : Node} {s s' : State} {u : Unit}
    (h : remarkUnreachable su n s = .ok u s') :
    s'.module = s.module ∧ s'.slots = s.slots ∧ s'.signatures = s.signatures ∧
      s'.served = s.served := by
  rw [remarkUnreachable] at h
  cases htag : n.tag? with
  | none => simp [htag] at h
  | some tag =>
    simp only [htag, remark_apply] at h
    cases h
    exact ⟨remarked_module .., remarked_slots .., remarked_signatures .., remarked_served ..⟩

theorem selectStmts_cons_ok {su : Setup} {returned : Bool} {n : Node} {ns : List Node}
    {current r : BlockRef} {s s' : State}
    (h : selectStmts su returned (n :: ns) current s = .ok r s') :
    ∃ s₀ s₁ mid again, s₀.module = s.module ∧ s₀.slots = s.slots ∧
      s₀.signatures = s.signatures ∧ s₀.served = s.served ∧
      selectStmt su n current s₀ = .ok mid s₁ ∧
      selectStmts su again ns mid s₁ = .ok r s' := by
  rw [selectStmts] at h
  cases returned with
  | true =>
    simp only [if_true] at h
    rw [bind_eq_ok] at h
    obtain ⟨_, s₀, hremark, h⟩ := h
    obtain ⟨hm, hslots, hsig, hserved⟩ := remarkUnreachable_eq_ok hremark
    rw [bind_eq_ok] at h
    obtain ⟨mid, s₁, hstmt, h⟩ := h
    exact ⟨s₀, s₁, mid, _, hm, hslots, hsig, hserved, hstmt, h⟩
  | false =>
    simp only [Bool.false_eq_true, if_false] at h
    rw [bind_eq_ok] at h
    obtain ⟨mid, s₁, hstmt, h⟩ := h
    exact ⟨s, s₁, mid, _, rfl, rfl, rfl, rfl, hstmt, h⟩

theorem selectVar_of_ne {su : Setup} {pt : Point} {tag : Tag} {name : String} {init : Node}
    (h : init ≠ .absent) :
    selectVar su pt tag name init = (do
      let source ← selectExpr su pt init
      let slot ← allocate tag
      if su.isGlobal name then emit .globals .mov [.slot slot, .slot source]
      else match pt with
        | .globals => fail tag.pos (.localOutside name)
        | .block _ => emit pt .mov [.slot slot, .slot source] : Selection Unit) := by
  cases init with
  | absent => exact absurd rfl h
  | _ => rfl

/-- The code of the initializer of a variable is put at the point, and the copy behind it or
at the end of the global sequence. -/
theorem selectVar_eq_ok {su : Setup} {pt : Point} {tag : Tag} {name : String} {t : ValueType}
    {init : Node} (hinit : init ≠ .absent) {s s' : State} {u : Unit}
    (h : selectVar su pt tag name init s = .ok u s') (hv : pt.Valid s.module) (hd : s.Declared) :
    ∃ source slot c s₁, Emitted pt c s s₁ ∧ Adds (claims su (.var tag name t init)) s s₁ ∧
      s' = s₁.emit (if su.isGlobal name then .globals else pt)
        ⟨.mov, [.slot slot, .slot source]⟩ ∧
      ∀ fin, Grows s₁ fin →
        ExprCode su fin init source c ∧ fin.slots.slot? (some tag.label) = some slot := by
  have hself : claimed? su (.var tag name t init) = some tag.label := by
    cases init with
    | absent => exact absurd rfl hinit
    | _ => rfl
  rw [selectVar_of_ne hinit, bind_eq_ok] at h
  obtain ⟨source, s₁, hexpr, h⟩ := h
  rw [bind_eq_ok] at h
  obtain ⟨slot, s₂, halloc, h⟩ := h
  obtain ⟨c, hemit, hadds, hcode⟩ := selectExpr_laid init pt s s₁ source hexpr hv hd
  obtain ⟨hnone, rfl, rfl⟩ := allocate_eq_ok.mp halloc
  have hemit₂ := emitted_withOwner pt s₁ tag.label
  refine ⟨source, s₁.slots.count, c, s₁.withOwner tag.label, ?_, ?_, ?_, fun fin hfin => ⟨?_, ?_⟩⟩
  · simpa using hemit.trans hemit₂
  · have hpart : init ∈ (Node.var tag name t init).parts := by simp [Node.parts]
    have hadds' : Adds (claims su (.var tag name t init)) s s₁ :=
      hadds.mono fun l => claims_part hpart
    exact hadds'.trans (adds_withOwner (claims_self hself) s₁)
  · by_cases hg : su.isGlobal name = true
    · rw [if_pos hg] at h
      cases h
      rw [if_pos hg]
      rfl
    · rw [if_neg hg] at h
      cases pt with
      | globals => cases h
      | block r =>
        cases h
        rw [if_neg hg]
        rfl
  · exact hcode fin (hemit₂.grows.trans hfin)
  · exact hfin.slot? (slot?_withOwner hnone)

/-- In the global sequence the copy comes behind the code of the initializer. -/
theorem selectVar_laid {su : Setup} {tag : Tag} {name : String} {t : ValueType} {init : Node}
    (hinit : init ≠ .absent) {s s' : State} {u : Unit}
    (h : selectVar su .globals tag name init s = .ok u s') (hd : s.Declared) :
    ∃ source slot c, Emitted .globals (c ++ [⟨.mov, [.slot slot, .slot source]⟩]) s s' ∧
      Adds (claims su (.var tag name t init)) s s' ∧
      ∀ fin, Grows s' fin →
        ExprCode su fin init source c ∧ fin.slots.slot? (some tag.label) = some slot := by
  have hv : Point.globals.Valid s.module := trivial
  obtain ⟨source, slot, c, s₁, hemit, hadds, rfl, hcode⟩ :=
    selectVar_eq_ok (t := t) hinit h hv hd
  rw [ite_self]
  have hemit₂ := emitted_emit (hemit.valid hv) ⟨.mov, [.slot slot, .slot source]⟩
  exact ⟨source, slot, c, hemit.trans hemit₂, hadds,
    fun fin hfin => hcode fin (hemit₂.grows.trans hfin)⟩

theorem rest_of_emitted {g i : Nat} {c rest rest' : List Instr} {s s' : State} {B : Blocks}
    (h : Emitted (.block ⟨g, i⟩) c s s') (hB : B i = s.module.code ⟨g, i⟩ ++ rest)
    (hB' : B i = s'.module.code ⟨g, i⟩ ++ rest') : rest = c ++ rest' := by
  rw [hB, h.code_here, List.append_assoc] at hB'
  exact List.append_cancel_left hB'

theorem selectStmts_laid {su : Setup} {g : Nat} {L : List Label} : ∀ (ns : List Node),
    (∀ n ∈ ns, StmtLaid su g n) → (∀ n ∈ ns, ∀ l ∈ claims su n, l ∈ L) →
    ∀ (returned : Bool) (i : Nat) (s s' : State) (r : BlockRef),
      selectStmts su returned ns ⟨g, i⟩ s = .ok r s' →
      s.module.count g = i + 1 → s.Declared →
        ∃ j, r = ⟨g, j⟩ ∧ Wrote g i j s s' ∧ Adds L s s' ∧
          (LocalAll su ns → s'.module.globals = s.module.globals) ∧
          ∀ fin B rest rest', Grows s' fin → Settled g B i j s' →
            B i = s.module.code ⟨g, i⟩ ++ rest → B j = s'.module.code ⟨g, j⟩ ++ rest' →
              StmtsAt su fin g B ns i rest j rest' := by
  intro ns
  induction ns with
  | nil =>
    intro _ _ returned i s s' r h hcount _
    rw [selectStmts] at h
    cases h
    refine ⟨i, rfl, (emitted_same rfl rfl List.prefix_rfl : Emitted _ [] s s).wrote hcount,
      Adds.of_slots rfl, fun _ => rfl, fun fin B rest rest' _ _ hB hB' => ?_⟩
    rw [StmtsAt]
    exact ⟨rfl, List.append_cancel_left (hB'.symm.trans hB)⟩
  | cons n ns ih =>
    intro hlaid hls returned i s s' r h hcount hd
    obtain ⟨s₀, s₁, mid, again, hm, hslots, hsig, -, hn, hns⟩ := selectStmts_cons_ok h
    have hsame : Emitted (.block ⟨g, i⟩) [] s s₀ :=
      emitted_same hm hsig (hslots ▸ List.prefix_rfl)
    obtain ⟨k, rfl, hwrote, hadds, hglob, hat⟩ := hlaid n (by simp) i s₀ s₁ mid hn
      ((hsame.count g).trans hcount) (hsame.declared hd)
    obtain ⟨j, rfl, hwrote', hadds', hglob', hat'⟩ := ih (fun m hm => hlaid m (by simp [hm]))
      (fun m hm => hls m (by simp [hm])) again k s₁ s' _ hns hwrote.count
      (hwrote.declared (hsame.declared hd))
    have hadds₀ : Adds L s s₀ := Adds.of_slots hslots
    refine ⟨j, rfl, ((hsame.wrote hcount).trans hwrote).trans hwrote',
      (hadds₀.trans (hadds.mono (hls n (by simp)))).trans hadds', fun hlocal => ?_,
      fun fin B rest rest' hfin hset hB hB' => ?_⟩
    · rw [LocalAll] at hlocal
      rw [hglob' hlocal.2, hglob hlocal.1, hm]
    -- What the rest of the statements leaves of the block in the middle.
    obtain ⟨rest₁, hB₁⟩ : ∃ rest₁, B k = s₁.module.code ⟨g, k⟩ ++ rest₁ := by
      obtain ⟨more, hmore⟩ := hwrote'.start
      rcases Nat.lt_or_eq_of_le hwrote'.le with hlt | rfl
      · exact ⟨more, by rw [hset k hwrote.le hlt, hmore]⟩
      · exact ⟨more ++ rest', by rw [hB', ← hmore, List.append_assoc]⟩
    rw [StmtsAt]
    refine ⟨k, rest₁, hat fin B rest rest₁ (hwrote'.grows.trans hfin) ?_ ?_ hB₁,
      hat' fin B rest₁ rest' hfin ?_ hB₁ hB'⟩
    · intro l hil hlk
      rw [hset l hil (Nat.lt_of_lt_of_le hlk hwrote'.le), hwrote'.before l hlk]
    · rw [hm]
      exact hB
    · exact fun l hkl => hset l (Nat.le_trans hwrote.le hkl)

theorem lookupOrAdd_laid {decl : Decl} {s s' : State} {slot : Slot} (pt : Point)
    (h : lookupOrAdd decl s = .ok slot s') :
    Emitted pt [] s s' ∧ Adds [decl.label] s s' ∧
      s'.slots.slot? (some decl.label) = some slot := by
  rw [lookupOrAdd, get_bind_apply] at h
  cases hheld : s.slots.slot? (some decl.label) with
  | some held =>
    simp only [hheld, pure_apply] at h
    cases h
    exact ⟨emitted_same rfl rfl List.prefix_rfl, Adds.of_slots rfl, hheld⟩
  | none =>
    simp only [hheld, get_bind_apply, modify_bind_apply, pure_apply] at h
    cases h
    exact ⟨emitted_withOwner pt s _, adds_withOwner (by simp) s, slot?_withOwner hheld⟩

theorem scannedSlot_laid {su : Setup} {tag : Tag} {target : Node} {s s' : State} {slot : Slot}
    (pt : Point) (h : scannedSlot su tag target s = .ok slot s') :
    ∃ t name decl, target = .ident t name ∧ su.bindings.find? t.label = some decl ∧
      Emitted pt [] s s' ∧ Adds (claims su (.scan tag target)) s s' ∧
      s'.slots.slot? (some decl.label) = some slot := by
  cases target with
  | ident t name =>
    rw [scannedSlot] at h
    simp only [Node.tag?] at h
    split at h
    · cases h
    · cases hbound : su.bindings.find? t.label with
      | none => simp [hbound, fail] at h
      | some decl =>
        simp only [hbound] at h
        obtain ⟨hemit, hadds, hslot⟩ := lookupOrAdd_laid pt h
        have hself : claimed? su (.scan tag (.ident t name)) = some decl.label := by
          simp [claimed?, hbound]
        refine ⟨t, name, decl, rfl, hbound, hemit, hadds.mono fun l hl => ?_, hslot⟩
        rw [List.mem_singleton.mp hl]
        exact claims_self hself
  | absent => simp [scannedSlot, Node.tag?, fail] at h
  | _ =>
    simp only [scannedSlot, Node.tag?] at h
    split at h <;> cases h

theorem selectExprStmt_laid {su : Setup} {n : Node} {r : BlockRef} {s s' : State} {u : Unit}
    (h : selectExprStmt su n r s = .ok u s') (hv : (Point.block r).Valid s.module)
    (hd : s.Declared) :
    ∃ slot c, Emitted (.block r) c s s' ∧ Adds (claims su n) s s' ∧
      ∀ fin, Grows s' fin → ExprCode su fin n slot c := by
  rw [selectExprStmt] at h
  cases htag : n.tag? with
  | none => simp [htag] at h
  | some tag =>
    simp only [htag] at h
    -- A remark at most, and then the expression.
    have hexpr : ∃ s₁ slot, Emitted (.block r) [] s s₁ ∧ s₁.slots = s.slots ∧
        selectExpr su (.block r) n s₁ = .ok slot s' := by
      split at h
      · cases h
      · split at h
        · simp only [remark_bind_apply] at h
          rw [bind_eq_ok] at h
          obtain ⟨slot, s₁, hexpr, h⟩ := h
          cases h
          exact ⟨_, slot, emitted_remarked .., remarked_slots .., hexpr⟩
        · rw [bind_eq_ok] at h
          obtain ⟨slot, s₁, hexpr, h⟩ := h
          cases h
          exact ⟨s, slot, emitted_same rfl rfl List.prefix_rfl, rfl, hexpr⟩
    obtain ⟨s₁, slot, hemit, hslots, hexpr⟩ := hexpr
    obtain ⟨c, hemit', hadds, hcode⟩ :=
      selectExpr_laid n (.block r) s₁ s' slot hexpr (hemit.valid hv) (hemit.declared hd)
    have hadds₁ : Adds (claims su n) s s₁ := Adds.of_slots hslots
    exact ⟨slot, c, hemit.trans hemit', hadds₁.trans hadds, hcode⟩

section Compounds

-- All cases open these functions: their equations are made here, once for all of them.
attribute [local simp] selectStmt StmtAt

variable {su : Setup} {g : Nat} {stmts : List Node}

theorem compound_laid (hstmts : ∀ n ∈ stmts, StmtLaid su g n) (tag : Tag) :
    StmtLaid su g (.compound tag stmts) := by
  intro i s s' r h hcount hd
  rw [selectStmt, bind_eq_ok] at h
  obtain ⟨entry, s₁, hopen, h⟩ := h
  obtain ⟨rfl, hopened⟩ := openBody_eq_ok hcount hopen
  have hwrote₁ := hopened.wrote hcount
  obtain ⟨j, rfl, hwrote, hadds, hglob, hat⟩ := selectStmts_laid
    (L := claims su (.compound tag stmts)) stmts hstmts
    (fun n hn l => claims_part (n := .compound tag stmts) hn) false (i + 1) s₁ s' r h
    hwrote₁.count (hwrote₁.declared hd)
  have hadds₁ : Adds (claims su (.compound tag stmts)) s s₁ := Adds.of_slots hopened.slots
  refine ⟨j, rfl, hwrote₁.trans hwrote, hadds₁.trans hadds,
    fun hlocal => (hglob (by rwa [Local] at hlocal)).trans hopened.globals,
    fun fin B rest rest' hfin hset hB hB' => ?_⟩
  rw [StmtAt]
  constructor
  · -- Nothing is added to the block that is left.
    have hlt : i < j := hwrote.le
    rw [hset i (Nat.le_refl i) hlt, hwrote.before i (Nat.lt_succ_self i),
      hopened.code_block] at hB
    exact List.append_cancel_left (hB.symm.trans (List.append_nil _).symm)
  · have hnew : s₁.module.code ⟨g, i + 1⟩ = [] := by
      rw [hopened.code_block]
      exact Module.code_of_count_le (Nat.le_of_eq hcount)
    refine hat fin B (B (i + 1)) rest' hfin (fun k hk => hset k (by omega)) ?_ hB'
    rw [hnew, List.nil_append]

theorem body_laid (hstmts : ∀ n ∈ stmts, StmtLaid su g n) {L : List Label}
    (hls : ∀ n ∈ stmts, ∀ l ∈ claims su n, l ∈ L) {i : Nat} {s s₁ s' : State} {r : BlockRef}
    (hcount : s.module.count g = i + 1) (hd : s.Declared) (hopened : Opened g s s₁)
    (h : selectStmts su false stmts ⟨g, i + 1⟩ s₁ = .ok r s') :
    ∃ k, r = ⟨g, k⟩ ∧ i + 1 ≤ k ∧ Wrote g i k s s' ∧ Adds L s s' ∧
      (LocalAll su stmts → s'.module.globals = s.module.globals) ∧
      s'.module.code ⟨g, i⟩ = s.module.code ⟨g, i⟩ ∧
      ∀ fin B rest', Grows s' fin → Settled g B (i + 1) k s' →
        B k = s'.module.code ⟨g, k⟩ ++ rest' →
          StmtsAt su fin g B stmts (i + 1) (B (i + 1)) k rest' := by
  have hwrote₁ := hopened.wrote hcount
  obtain ⟨k, rfl, hwrote, hadds, hglob, hat⟩ := selectStmts_laid stmts hstmts hls false (i + 1)
    s₁ s' r h hwrote₁.count (hwrote₁.declared hd)
  have hadds₁ : Adds L s s₁ := Adds.of_slots hopened.slots
  refine ⟨k, rfl, hwrote.le, hwrote₁.trans hwrote, hadds₁.trans hadds,
    fun hlocal => (hglob hlocal).trans hopened.globals, ?_,
    fun fin B rest' hfin hset hB' => ?_⟩
  · rw [hwrote.before i (Nat.lt_succ_self i), hopened.code_block]
  · refine hat fin B (B (i + 1)) rest' hfin hset ?_ hB'
    rw [hopened.code_block, Module.code_of_count_le (Nat.le_of_eq hcount), List.nil_append]

theorem Wrote.emitted {i j k : Nat} {c : List Instr} {s s₁ s' : State} (h : Wrote g i j s s₁)
    (he : Emitted (.block ⟨g, k⟩) c s₁ s') (hik : i ≤ k) : Wrote g i j s s' where
  le := h.le
  count := (he.count g).trans h.count
  counts q hq := (he.count q).trans (h.counts q hq)
  before l hl := by rw [he.code_ne (by omega), h.before l hl]
  start := by
    rcases Nat.eq_or_lt_of_le hik with rfl | hlt
    · exact h.start.trans ⟨c, he.code_here.symm⟩
    · rw [he.code_ne (by omega)]
      exact h.start
  others r hr := by
    rw [he.code_other fun heq => hr (by rw [heq]), h.others r hr]
  globals := by
    rw [he.globals]
    exact h.globals
  graphs := he.graphs.trans h.graphs
  functions := he.functions.trans h.functions
  signatures := he.signatures.trans h.signatures
  owners := h.owners.trans he.owners
  literals := h.literals.trans he.literals

theorem ifThen_laid (hstmts : ∀ n ∈ stmts, StmtLaid su g n) (tag btag : Tag) (cond : Node) :
    StmtLaid su g (.ifThen tag cond (.compound btag stmts)) := by
  intro i s s' r h hcount hd
  have hv : (Point.block ⟨g, i⟩).Valid s.module := by
    show i < s.module.count g
    omega
  rw [selectStmt, bind_eq_ok] at h
  obtain ⟨slot, s₁, hcond, h⟩ := h
  obtain ⟨c, hemit, hadds, hcode⟩ := selectExpr_laid cond _ s s₁ slot hcond hv hd
  have hcount₁ := (hemit.count g).trans hcount
  rw [bind_eq_ok] at h
  obtain ⟨⟨bodyEntry, bodyEnd⟩, s₃, hbody, h⟩ := h
  obtain ⟨rfl, _, _, s₂, heq, hopened, hstmts'⟩ := selectBody_eq_ok hcount₁ hbody
  cases heq
  have hpart : Node.compound btag stmts ∈ (Node.ifThen tag cond (.compound btag stmts)).parts := by
    simp [Node.parts]
  obtain ⟨k, rfl, hik, hwrote, hadds₃, hglob, hsame, hat⟩ := body_laid
    (L := claims su (.ifThen tag cond (.compound btag stmts))) hstmts
    (fun n hn l hl => claims_part hpart (claims_part (n := .compound btag stmts) hn hl)) hcount₁
    (hemit.declared hd) hopened hstmts'
  -- The exit, and the jumps to it.
  obtain ⟨s₄, hexit, hopened₄⟩ := openBlock_spec hwrote.count
  have hwrote₄ := hopened₄.wrote hwrote.count
  have hv₄ : ∀ l, l ≤ k → (Point.block ⟨g, l⟩).Valid s₄.module := fun l hl => by
    show l < s₄.module.count g
    rw [hwrote₄.count]
    omega
  obtain ⟨s₅, hbranch, hemit₅, hslots₅⟩ :=
    emitBranch_spec (hv₄ i (by omega)) slot ⟨g, i + 1⟩ ⟨g, k + 1⟩
  obtain ⟨s₆, hjump, hemit₆, hslots₆⟩ :=
    jump_spec (hemit₅.valid (hv₄ k (Nat.le_refl k))) ⟨g, k + 1⟩
  dsimp only at h
  rw [bind_of_ok hexit, bind_of_ok hbranch, bind_of_ok hjump] at h
  cases h
  have hall := (hemit.wrote hcount).trans (hwrote.trans hwrote₄)
  refine ⟨k + 1, rfl, (hall.emitted hemit₅ (Nat.le_refl i)).emitted hemit₆ (by omega), ?_,
    fun hlocal => ?_, fun fin B rest rest' hfin hset hB hB' => ?_⟩
  · have hcondPart : cond ∈ (Node.ifThen tag cond (.compound btag stmts)).parts := by
      simp [Node.parts]
    have hadds₁ := hadds.mono fun l hl => claims_part hcondPart hl
    exact (hadds₁.trans hadds₃).trans
      (Adds.of_slots (hslots₆.trans (hslots₅.trans hopened₄.slots)))
  · rw [Local, Local] at hlocal
    rw [hemit₆.globals, hemit₅.globals, hopened₄.globals, hglob hlocal, hemit.globals]
  · have hgrow₅ := hemit₆.grows.trans hfin
    have hgrow₃ := hopened₄.grows.trans (hemit₅.grows.trans hgrow₅)
    have hother₅ : ∀ l, l ≠ i → s₅.module.code ⟨g, l⟩ = s₃.module.code ⟨g, l⟩ := fun l hl => by
      rw [hemit₅.code_ne hl, hopened₄.code_block]
    rw [StmtAt]
    refine ⟨slot, c, k, hcode fin (hwrote.grows.trans hgrow₃), ?_, ?_, rfl, ?_⟩
    · -- The block of the condition.
      have hi : s'.module.code ⟨g, i⟩ =
          s.module.code ⟨g, i⟩ ++ (c ++ branchTo slot ⟨g, i + 1⟩ ⟨g, k + 1⟩) := by
        rw [hemit₆.code_ne (by omega), hemit₅.code_here, hopened₄.code_block, hsame,
          hemit.code_here, List.append_assoc]
      rw [hset i (Nat.le_refl i) (by omega), hi] at hB
      exact (List.append_cancel_left hB).symm
    · -- The body, which jumps to the exit.
      refine hat fin B _ hgrow₃ (fun l hl hlk => ?_) ?_
      · rw [hset l (by omega) (by omega), hemit₆.code_ne (by omega), hother₅ l (by omega)]
      · rw [hset k (by omega) (by omega), hemit₆.code_here, hother₅ k (by omega)]
    · -- The exit is new.
      rw [hB', hemit₆.code_ne (by omega), hother₅ (k + 1) (by omega),
        Module.code_of_count_le (Nat.le_of_eq hwrote.count), List.nil_append]

theorem loop_laid (hstmts : ∀ n ∈ stmts, StmtLaid su g n) (tag btag : Tag) (cond : Node) :
    StmtLaid su g (.loop tag cond (.compound btag stmts)) := by
  intro i s s' r h hcount hd
  obtain ⟨s₁, hheader, hopened₁⟩ := openBlock_spec hcount
  have hwrote₁ := hopened₁.wrote hcount
  have hv₁ : (Point.block ⟨g, i + 1⟩).Valid s₁.module := by
    show i + 1 < s₁.module.count g
    rw [hwrote₁.count]
    omega
  rw [selectStmt, bind_of_ok hheader, bind_eq_ok] at h
  obtain ⟨slot, s₂, hcond, h⟩ := h
  obtain ⟨c, hemit, hadds, hcode⟩ :=
    selectExpr_laid cond _ s₁ s₂ slot hcond hv₁ (hwrote₁.declared hd)
  have hcount₂ := (hemit.count g).trans hwrote₁.count
  rw [bind_eq_ok] at h
  obtain ⟨⟨bodyEntry, bodyEnd⟩, s₄, hbody, h⟩ := h
  obtain ⟨rfl, _, _, s₃, heq, hopened, hstmts'⟩ := selectBody_eq_ok hcount₂ hbody
  cases heq
  have hpart : Node.compound btag stmts ∈ (Node.loop tag cond (.compound btag stmts)).parts := by
    simp [Node.parts]
  obtain ⟨k, rfl, hik, hwrote, hadds₄, hglob, hsame, hat⟩ := body_laid
    (L := claims su (.loop tag cond (.compound btag stmts))) hstmts
    (fun n hn l hl => claims_part hpart (claims_part (n := .compound btag stmts) hn hl)) hcount₂
    (hemit.declared (hwrote₁.declared hd)) hopened hstmts'
  -- The jump back, the exit, and the test in the header.
  obtain ⟨s₅, hjump, hemit₅, hslots₅⟩ := jump_spec (r := ⟨g, k⟩) (s := s₄) (by
    show k < s₄.module.count g
    rw [hwrote.count]
    omega) ⟨g, i + 1⟩
  have hcount₅ := (hemit₅.count g).trans hwrote.count
  obtain ⟨s₆, hexit, hopened₆⟩ := openBlock_spec hcount₅
  have hwrote₆ := hopened₆.wrote hcount₅
  obtain ⟨s₇, hbranch, hemit₇, hslots₇⟩ := emitBranch_spec (r := ⟨g, i + 1⟩) (s := s₆) (by
    show i + 1 < s₆.module.count g
    rw [hwrote₆.count]
    omega) slot ⟨g, i + 2⟩ ⟨g, k + 1⟩
  dsimp only at h
  rw [bind_of_ok hjump, bind_of_ok hexit, bind_of_ok hbranch] at h
  cases h
  have hall := (hwrote₁.trans ((hemit.wrote hwrote₁.count).trans hwrote)).emitted hemit₅ (by omega)
  refine ⟨k + 1, rfl, (hall.trans hwrote₆).emitted hemit₇ (by omega), ?_, fun hlocal => ?_,
    fun fin B rest rest' hfin hset hB hB' => ?_⟩
  · have hcondPart : cond ∈ (Node.loop tag cond (.compound btag stmts)).parts := by
      simp [Node.parts]
    have hadds₁ : Adds (claims su (.loop tag cond (.compound btag stmts))) s s₁ :=
      Adds.of_slots hopened₁.slots
    have hadds₂ := hadds.mono fun l hl => claims_part hcondPart hl
    exact (hadds₁.trans (hadds₂.trans hadds₄)).trans
      (Adds.of_slots (hslots₇.trans (hopened₆.slots.trans hslots₅)))
  · rw [Local, Local] at hlocal
    rw [hemit₇.globals, hopened₆.globals, hemit₅.globals, hglob hlocal, hemit.globals,
      hopened₁.globals]
  · have hgrow₆ := hemit₇.grows.trans hfin
    have hgrow₄ := hemit₅.grows.trans (hopened₆.grows.trans hgrow₆)
    have hother : ∀ l, l ≠ i + 1 → l ≠ k → s'.module.code ⟨g, l⟩ = s₄.module.code ⟨g, l⟩ := by
      intro l hl hlk
      rw [hemit₇.code_ne hl, hopened₆.code_block, hemit₅.code_ne hlk]
    rw [StmtAt]
    refine ⟨?_, slot, c, k, hcode fin (hwrote.grows.trans hgrow₄), ?_, ?_, rfl, ?_⟩
    · -- Nothing is added to the block that is left.
      rw [hset i (Nat.le_refl i) (by omega), hother i (by omega) (by omega),
        hwrote.before i (by omega), hemit.code_ne (by omega), hopened₁.code_block] at hB
      exact List.append_cancel_left (hB.symm.trans (List.append_nil _).symm)
    · -- The header.
      rw [hset (i + 1) (by omega) (by omega), hemit₇.code_here, hopened₆.code_block,
        hemit₅.code_ne (by omega), hsame, hemit.code_here, hopened₁.code_block,
        Module.code_of_count_le (Nat.le_of_eq hcount), List.nil_append]
    · -- The body, which jumps back.
      refine hat fin B _ hgrow₄ (fun l hl hlk => ?_) ?_
      · rw [hset l (by omega) (by omega), hother l (by omega) (by omega)]
      · rw [hset k (by omega) (by omega), hemit₇.code_ne (by omega), hopened₆.code_block,
          hemit₅.code_here]
    · -- The exit is new.
      rw [hB', hother (k + 1) (by omega) (by omega),
        Module.code_of_count_le (Nat.le_of_eq hwrote.count), List.nil_append]

end Compounds

section InPlace

variable {su : Setup} {g : Nat}

/-- The statement only adds code to the block where it stands. -/
def InPlace (su : Setup) (g : Nat) (n : Node) : Prop :=
  ∀ (i : Nat) (s s' : State) (r : BlockRef), selectStmt su n ⟨g, i⟩ s = .ok r s' →
    (Point.block ⟨g, i⟩).Valid s.module → s.Declared →
      r = ⟨g, i⟩ ∧ ∃ c, Emitted (.block ⟨g, i⟩) c s s' ∧ Adds (claims su n) s s' ∧
        ∀ fin B rest, Grows s' fin → StmtAt su fin g B n i (c ++ rest) i rest

theorem InPlace.laid {n : Node} (h : InPlace su g n) : StmtLaid su g n := by
  intro i s s' r hrun hcount hd
  have hv : (Point.block ⟨g, i⟩).Valid s.module := by
    show i < s.module.count g
    omega
  obtain ⟨hr, c, hemit, hadds, hat⟩ := h i s s' r hrun hv hd
  refine ⟨i, hr, hemit.wrote hcount, hadds, fun _ => hemit.globals,
    fun fin B rest rest' hfin _ hB hB' => ?_⟩
  rw [rest_of_emitted hemit hB hB']
  exact hat fin B rest' hfin

theorem Wrote.copied {i j : Nat} {c : List Instr} {s s₁ s' : State} (h : Wrote g i j s s₁)
    (he : Emitted .globals c s₁ s') (hc : Copies c) : Wrote g i j s s' where
  le := h.le
  count := (he.count g).trans h.count
  counts q hq := (he.count q).trans (h.counts q hq)
  before k hk := (he.elsewhere (.block _) (by simp)).trans (h.before k hk)
  start := by
    rw [show s'.module.code ⟨g, i⟩ = s₁.module.code ⟨g, i⟩ from he.elsewhere (.block _) (by simp)]
    exact h.start
  others r hr := (he.elsewhere (.block r) (by simp)).trans (h.others r hr)
  globals := by
    obtain ⟨d, hd, hglob⟩ := h.globals
    refine ⟨d ++ c, List.forall_mem_append.mpr ⟨hd, hc⟩, ?_⟩
    rw [show s'.module.globals = s₁.module.globals ++ c from he.here, hglob, List.append_assoc]
  graphs := he.graphs.trans h.graphs
  functions := he.functions.trans h.functions
  signatures := he.signatures.trans h.signatures
  owners := h.owners.trans he.owners
  literals := h.literals.trans he.literals

theorem var_laid (tag : Tag) (name : String) (type : ValueType) (init : Node) :
    StmtLaid su g (.var tag name type init) := by
  intro i s s' r h hcount hd
  rw [selectStmt, bind_eq_ok] at h
  obtain ⟨_, s₁, hvar, h⟩ := h
  cases h
  by_cases hinit : init = .absent
  · subst hinit
    cases hvar
    refine ⟨i, rfl, (emitted_same rfl rfl List.prefix_rfl : Emitted _ [] s s).wrote hcount,
      Adds.of_slots rfl, fun _ => rfl, fun fin B rest rest' _ _ hB hB' => ?_⟩
    rw [StmtAt]
    exact ⟨rfl, List.append_cancel_left (hB'.symm.trans hB)⟩
  · have hv : (Point.block ⟨g, i⟩).Valid s.module := by
      show i < s.module.count g
      omega
    obtain ⟨source, slot, c, s₂, hemit, hadds, rfl, hcode⟩ :=
      selectVar_eq_ok (t := type) hinit hvar hv hd
    have hwrote := hemit.wrote hcount
    by_cases hg : su.isGlobal name = true
    · -- The copy goes elsewhere.
      rw [if_pos hg]
      have hglob : Point.globals.Valid s₂.module := trivial
      have hemit₂ := emitted_emit hglob ⟨.mov, [.slot slot, .slot source]⟩
      refine ⟨i, rfl, hwrote.copied hemit₂ (by simp [Copies]), hadds, fun hlocal => ?_,
        fun fin B rest rest' hfin _ hB hB' => ?_⟩
      · rw [Local, hg] at hlocal
        cases hlocal
      · obtain ⟨hexpr, hslot⟩ := hcode fin (hemit₂.grows.trans hfin)
        rw [show (s₂.emit .globals _).module.code ⟨g, i⟩ = s₂.module.code ⟨g, i⟩ from
          hemit₂.elsewhere (.block _) (by simp)] at hB'
        refine (stmtAt_var hinit).mpr ⟨source, slot, c, hexpr, hslot, rfl, ?_⟩
        rw [localCopy, if_pos hg, List.append_nil]
        exact rest_of_emitted hemit hB hB'
    · rw [if_neg hg]
      have hemit₂ := emitted_emit (hemit.valid hv) ⟨.mov, [.slot slot, .slot source]⟩
      have hall := hemit.trans hemit₂
      refine ⟨i, rfl, hall.wrote hcount, hadds, fun _ => hall.globals,
        fun fin B rest rest' hfin _ hB hB' => ?_⟩
      obtain ⟨hexpr, hslot⟩ := hcode fin (hemit₂.grows.trans hfin)
      refine (stmtAt_var hinit).mpr ⟨source, slot, c, hexpr, hslot, rfl, ?_⟩
      rw [localCopy, if_neg hg]
      exact rest_of_emitted hall hB hB'

theorem ret_inPlace (tag : Tag) (expr : Node) : InPlace su g (.ret tag expr) := by
  intro i s s' r h hv hd
  rw [selectStmt] at h
  by_cases hne : expr = .absent
  · subst hne
    simp only [Node.isAbsent, Bool.not_true, Bool.false_eq_true, if_false, emit_bind_apply] at h
    cases h
    refine ⟨rfl, _, emitted_emit hv ⟨.ret, []⟩, Adds.of_slots rfl, fun fin B rest _ => ?_⟩
    rw [StmtAt]
    exact ⟨rfl, rfl⟩
  · have hthere : (!expr.isAbsent) = true := by
      cases expr with
      | absent => exact absurd rfl hne
      | _ => rfl
    rw [if_pos hthere, bind_eq_ok] at h
    obtain ⟨slot, s₁, hval, h⟩ := h
    obtain ⟨c, hemit, hadds, hcode⟩ := selectExpr_laid expr _ s s₁ slot hval hv hd
    rw [bind_eq_ok] at h
    obtain ⟨_, s₂, hserve, h⟩ := h
    obtain ⟨out, hout, hemit₂, hslots⟩ := emitted_serve (hemit.valid hv) hserve
    simp only [emit_bind_apply] at h
    cases h
    have hemit₃ := emitted_emit (hemit₂.valid (hemit.valid hv)) ⟨.ret, []⟩
    have hpart : expr ∈ (Node.ret tag expr).parts := by simp [Node.parts]
    refine ⟨rfl, _, hemit.trans (hemit₂.trans hemit₃),
      (hadds.mono fun l => claims_part hpart).trans (Adds.of_slots hslots),
      fun fin B rest hfin => ?_⟩
    refine (stmtAt_ret hne).mpr ⟨slot, c, out, ?_, ⟨_, hout⟩, rfl, by simp⟩
    exact hcode fin ((hemit₂.trans hemit₃).grows.trans hfin)

theorem print_inPlace (tag : Tag) (expr : Node) : InPlace su g (.print tag expr) := by
  intro i s s' r h hv hd
  rw [selectStmt, bind_eq_ok] at h
  obtain ⟨slot, s₁, hexpr, h⟩ := h
  obtain ⟨c, hemit, hadds, hcode⟩ := selectExpr_laid expr _ s s₁ slot hexpr hv hd
  rw [bind_eq_ok] at h
  obtain ⟨_, s₂, hserve, h⟩ := h
  cases h
  obtain ⟨out, hout, hemit₂, hslots⟩ := emitted_serve (hemit.valid hv) hserve
  have hpart : expr ∈ (Node.print tag expr).parts := by simp [Node.parts]
  refine ⟨rfl, _, hemit.trans hemit₂,
    (hadds.mono fun l => claims_part hpart).trans (Adds.of_slots hslots),
    fun fin B rest hfin => ?_⟩
  rw [StmtAt]
  exact ⟨slot, c, out, hcode fin (hemit₂.grows.trans hfin), ⟨_, hout⟩, rfl, rfl⟩

theorem scan_inPlace (tag : Tag) (target : Node) : InPlace su g (.scan tag target) := by
  intro i s s' r h hv _
  rw [selectStmt, bind_eq_ok] at h
  obtain ⟨slot, s₁, hscan, h⟩ := h
  obtain ⟨t, name, decl, rfl, hbound, hemit, hadds, hslot⟩ :=
    scannedSlot_laid (.block ⟨g, i⟩) hscan
  rw [bind_eq_ok] at h
  obtain ⟨_, s₂, hserve, h⟩ := h
  cases h
  obtain ⟨out, hout, hemit₂, hslots⟩ := emitted_serve (hemit.valid hv) hserve
  refine ⟨rfl, _, hemit.trans hemit₂, hadds.trans (Adds.of_slots hslots),
    fun fin B rest hfin => ?_⟩
  rw [StmtAt]
  exact ⟨decl, slot, out, hbound, (hemit₂.grows.trans hfin).slot? hslot, ⟨_, hout⟩, rfl, rfl⟩

end InPlace

theorem compound_of_body {su : Setup} {g i : Nat} {cond body : Node} {s s' : State} {α : Type}
    {k : Slot → BlockRef × BlockRef → Selection α} {a : α} (hcount : s.module.count g = i + 1)
    (hd : s.Declared)
    (h : (do
      let slot ← selectExpr su (.block ⟨g, i⟩) cond
      k slot (← selectBody su body ⟨g, i⟩) : Selection α) s = .ok a s') :
    ∃ tag stmts, body = .compound tag stmts := by
  rw [bind_eq_ok] at h
  obtain ⟨slot, s₁, hcond, h⟩ := h
  have hv : (Point.block ⟨g, i⟩).Valid s.module := by
    show i < s.module.count g
    omega
  obtain ⟨c, hemit, -, -⟩ := selectExpr_laid cond _ s s₁ slot hcond hv hd
  rw [bind_eq_ok] at h
  obtain ⟨⟨_, _⟩, s₂, hsel, -⟩ := h
  obtain ⟨-, tag, stmts, _, heq, -⟩ := selectBody_eq_ok ((hemit.count g).trans hcount) hsel
  exact ⟨tag, stmts, heq⟩

/-- **Selection lays out a statement** behind the last block of a graph. -/
theorem selectStmt_laid {su : Setup} {g : Nat} : ∀ n : Node, StmtLaid su g n := by
  intro n
  induction n using Node.parts_induction with
  | _ n ih ih₂ =>
  cases n with
  | var tag name type init => exact var_laid tag name type init
  | compound tag stmts => exact compound_laid ih tag
  | ifThen tag cond body =>
    intro i s s' r h hcount hd
    obtain ⟨btag, stmts, rfl⟩ : ∃ btag stmts, body = .compound btag stmts := by
      rw [selectStmt] at h
      exact compound_of_body hcount hd h
    exact ifThen_laid (ih₂ (.compound btag stmts) (by simp [Node.parts])) tag btag cond i s s' r h
      hcount hd
  | loop tag cond body =>
    intro i s s' r h hcount hd
    obtain ⟨btag, stmts, rfl⟩ : ∃ btag stmts, body = .compound btag stmts := by
      obtain ⟨s₁, hheader, hopened₁⟩ := openBlock_spec hcount
      have hwrote₁ := hopened₁.wrote hcount
      rw [selectStmt, bind_of_ok hheader] at h
      exact compound_of_body hwrote₁.count (hwrote₁.declared hd) h
    exact loop_laid (ih₂ (.compound btag stmts) (by simp [Node.parts])) tag btag cond i s s' r h
      hcount hd
  | ret tag expr => exact (ret_inPlace tag expr).laid
  | print tag expr => exact (print_inPlace tag expr).laid
  | scan tag target => exact (scan_inPlace tag target).laid
  | absent | bare | program | function | param | binary | boolean | call | ident | number
  | string =>
    refine InPlace.laid fun i s s' r h hv hd => ?_
    simp only [selectStmt] at h
    rw [bind_eq_ok] at h
    obtain ⟨_, s₁, hexpr, h⟩ := h
    cases h
    obtain ⟨slot, c, hemit, hadds, hcode⟩ := selectExprStmt_laid hexpr hv hd
    refine ⟨rfl, c, hemit, hadds, fun fin B rest hfin => ?_⟩
    simp only [StmtAt]
    exact ⟨slot, c, hcode fin hfin, trivial, rfl⟩

end Isel.Select
