import Isel.Proofs.Edges

/-!
# Blocks and their edges

A block that control has left is `Linked`: it is straight code with one of three endings,
and its edges are those of the ending.  Whether a block that falls through or jumps has an
edge at all is decided by the last instruction in front of its ending: a `RET` there leaves
it without one.

`stmt_linked` says that selection of a statement links the blocks that control leaves in it.
-/

namespace Isel.Flow

/-- The instruction is no jump and no test. -/
def Instr.isStraight (i : Instr) : Bool := i.op ≠ .jump && i.op ≠ .tst

/-- There is no jump and no test in the code. -/
def Straight (code : List Instr) : Prop := ∀ i ∈ code, i.isStraight = true

theorem straight_nil : Straight [] := by simp [Straight]

theorem Straight.append {c d : List Instr} (hc : Straight c) (hd : Straight d) :
    Straight (c ++ d) := List.forall_mem_append.mpr ⟨hc, hd⟩

/-- Straight code ends in a terminator only if that is a `RET`. -/
theorem Straight.endsTerminated {code : List Instr} (h : Straight code) :
    endsTerminated code = endsInRet code := by
  rw [Flow.endsTerminated, endsInRet]
  cases hlast : code.getLast? with
  | none => rfl
  | some i =>
    have hi := h i (List.mem_of_getLast? hlast)
    simp only [Instr.isStraight, Bool.and_eq_true, decide_eq_true_eq] at hi
    simp [Instr.isTerminator, Machine.Opcode.isTerminator, hi.1]

end Isel.Flow

namespace Isel.Select

open Isel.Flow Isel.Syntax Isel.Proofs

/-! ## Linked blocks -/

/-- The hooks put in no jump and no test. -/
def StraightHooks (su : Setup) : Prop := ∀ request out, Answered su request out → Straight out

/-- There is no jump and no test in the code if the hooks put in none. -/
def StraightUpTo (su : Setup) (code : List Instr) : Prop := StraightHooks su → Straight code

theorem straightUpTo_nil {su : Setup} : StraightUpTo su [] := fun _ => straight_nil

theorem StraightUpTo.append {su : Setup} {c d : List Instr} (hc : StraightUpTo su c)
    (hd : StraightUpTo su d) : StraightUpTo su (c ++ d) := fun hh => (hc hh).append (hd hh)

/-- The code of block `k` of the graph `g`, and its edges. -/
inductive Linked (su : Setup) (g k : Nat) : List Instr → List (Option BlockRef) → Prop
  | fall {code : List Instr} : StraightUpTo su code →
      Linked su g k code (fallEdges code ⟨g, k + 1⟩)
  | jump {code : List Instr} {t : Nat} : StraightUpTo su code →
      Linked su g k (code ++ [jumpTo ⟨g, t⟩]) (jumpEdges code ⟨g, t⟩)
  | branch {code : List Instr} {slot : Slot} {yes no : Nat} : StraightUpTo su code → yes ≠ no →
      Linked su g k (code ++ branchTo slot ⟨g, yes⟩ ⟨g, no⟩) [some ⟨g, yes⟩, some ⟨g, no⟩]

/-- All blocks of a graph are linked, but for the last one, which has no edges. -/
structure GraphLinked (su : Setup) (m : Module) (g : Nat) : Prop where
  links : ∀ k, k + 1 < m.count g → Linked su g k (m.code ⟨g, k⟩) (m.edges ⟨g, k⟩)
  last : ∀ k, k + 1 = m.count g → m.edges ⟨g, k⟩ = [] ∧ StraightUpTo su (m.code ⟨g, k⟩)

theorem GraphLinked.congr {su : Setup} {m m' : Module} {g : Nat} (h : GraphLinked su m g)
    (hcount : m'.count g = m.count g) (hcode : ∀ k, m'.code ⟨g, k⟩ = m.code ⟨g, k⟩)
    (hedges : ∀ k, m'.edges ⟨g, k⟩ = m.edges ⟨g, k⟩) : GraphLinked su m' g := by
  refine ⟨fun k hk => ?_, fun k hk => ?_⟩
  · rw [hcode, hedges]
    exact h.links k (hcount ▸ hk)
  · rw [hcode, hedges]
    exact h.last k (hcount ▸ hk)

/-- The steps from `s` to `s'` linked the blocks of the graph `g` from `i` to the one before
`j`, which control has not left, and recorded no edge elsewhere. -/
structure Linking (su : Setup) (g i j : Nat) (s s' : State) : Prop where
  before : ∀ q : BlockRef, q.graph ≠ g ∨ q.index < i → s'.module.edges q = s.module.edges q
  links : ∀ k, i ≤ k → k < j → Linked su g k (s'.module.code ⟨g, k⟩) (s'.module.edges ⟨g, k⟩)
  last : s'.module.edges ⟨g, j⟩ = []
  straight : StraightUpTo su (s'.module.code ⟨g, j⟩)

section Linking

variable {su : Setup} {g i j k : Nat} {s s₁ s' : State}

theorem Linking.trans (h₁ : Linking su g i k s s₁) (hik : i ≤ k) (h₂ : Linking su g k j s₁ s')
    (hw : Wrote g k j s₁ s') : Linking su g i j s s' where
  before q hq := by
    rw [h₂.before q (hq.imp_right fun hlt => by omega), h₁.before q hq]
  links l hil hlj := by
    rcases Nat.lt_or_ge l k with hlt | hge
    · rw [hw.before l hlt, h₂.before ⟨g, l⟩ (.inr hlt)]
      exact h₁.links l hil hlt
    · exact h₂.links l hge hlj
  last := h₂.last
  straight := h₂.straight

theorem Linking.after (h : Linking su g i j s₁ s')
    (hedges : ∀ q, s₁.module.edges q = s.module.edges q) : Linking su g i j s s' :=
  ⟨fun q hq => by rw [h.before q hq, hedges], h.links, h.last, h.straight⟩

theorem ne_of_before {q : BlockRef} (hq : q.graph ≠ g ∨ q.index < i) (hik : i ≤ k) :
    q ≠ ⟨g, k⟩ := by
  rintro rfl
  rcases hq with hg | hlt
  · exact hg rfl
  · exact absurd hik (Nat.not_le_of_lt hlt)

theorem Linking.patch (h : Linking su g i j s s₁) {l : Nat} (hil : i ≤ l) (hlj : l < j)
    (hcode : ∀ q, q ≠ ⟨g, l⟩ → s'.module.code q = s₁.module.code q)
    (hedges : ∀ q, q ≠ ⟨g, l⟩ → s'.module.edges q = s₁.module.edges q)
    (hnew : Linked su g l (s'.module.code ⟨g, l⟩) (s'.module.edges ⟨g, l⟩)) :
    Linking su g i j s s' where
  before q hq := by rw [hedges q (ne_of_before hq hil), h.before q hq]
  links k hik hkj := by
    by_cases hkl : k = l
    · subst hkl
      exact hnew
    · rw [hcode _ (blockRef_ne hkl), hedges _ (blockRef_ne hkl)]
      exact h.links k hik hkj
  last := by
    rw [hedges _ (blockRef_ne (by omega))]
    exact h.last
  straight := by
    rw [hcode _ (blockRef_ne (by omega))]
    exact h.straight

/-- The last block is linked, and behind it there is a new one without code. -/
theorem linking_next (hcount : s.module.count g = i + 1)
    (hothers : ∀ q, q ≠ ⟨g, i⟩ → s'.module.edges q = s.module.edges q)
    (hlinked : Linked su g i (s'.module.code ⟨g, i⟩) (s'.module.edges ⟨g, i⟩))
    (hnew : s'.module.code ⟨g, i + 1⟩ = []) : Linking su g i (i + 1) s s' where
  before q hq := hothers q (ne_of_before hq (Nat.le_refl i))
  links k hik hk := by
    obtain rfl : k = i := by omega
    exact hlinked
  last := by
    rw [hothers _ (blockRef_ne (by omega))]
    exact Module.edges_of_count_le (Nat.le_of_eq hcount)
  straight := by
    rw [hnew]
    exact straightUpTo_nil

theorem openBlock_linking {r : BlockRef} (hcount : s.module.count g = i + 1)
    (hnone : s.module.edges ⟨g, i⟩ = []) (hstraight : StraightUpTo su (s.module.code ⟨g, i⟩))
    (h : openBlock ⟨g, i⟩ s = .ok r s') : Linking su g i (i + 1) s s' := by
  obtain ⟨s₁, hrun, hopened⟩ := openBlock_spec hcount
  cases hrun.symm.trans h
  obtain ⟨hhere, hothers⟩ := openBlock_edges hcount h
  refine linking_next hcount hothers ?_ ?_
  · rw [hhere, hopened.code_block, hnone, List.nil_append]
    exact .fall hstraight
  · rw [hopened.code_block]
    exact Module.code_of_count_le (Nat.le_of_eq hcount)

/-- A block that is opened behind one without edges, which a jump has closed: no edge leads
from one to the other. -/
theorem jump_openBlock_linking {t : Nat} {r : BlockRef} {u : Unit}
    (hcount : s.module.count g = i + 1) (hnone : s.module.edges ⟨g, i⟩ = [])
    (hstraight : StraightUpTo su (s.module.code ⟨g, i⟩))
    (hjump : jump ⟨g, i⟩ ⟨g, t⟩ s = .ok u s₁) (h : openBlock ⟨g, i⟩ s₁ = .ok r s') :
    Linking su g i (i + 1) s s' := by
  have hv : (Point.block ⟨g, i⟩).Valid s.module := by
    show i < s.module.count g
    omega
  obtain ⟨s₂, hrun, hemit, -⟩ := jump_spec hv ⟨g, t⟩
  cases hrun.symm.trans hjump
  have hcount₁ := (hemit.count g).trans hcount
  obtain ⟨s₂, hrun, hopened⟩ := openBlock_spec hcount₁
  cases hrun.symm.trans h
  obtain ⟨hhere, hothers⟩ := openBlock_edges hcount₁ h
  refine linking_next hcount (fun q hq => ?_) ?_ ?_
  · rw [hothers q hq, (jump_edges hv hjump).2 q hq]
  · rw [hhere, jump_edges_first hv hjump hnone, hopened.code_block, hemit.code_here, fallEdges,
      endsTerminated_concat, if_pos (show (jumpTo _).isTerminator = true from rfl),
      List.append_nil]
    exact .jump hstraight
  · rw [hopened.code_block]
    exact Module.code_of_count_le (Nat.le_of_eq hcount₁)

end Linking

/-! ## Statements link their blocks -/

/-- What selection of a statement does to the edges when it ends well. -/
def StmtLinked (su : Setup) (g : Nat) (n : Node) : Prop :=
  ∀ (i : Nat) (s s' : State) (r : BlockRef), selectStmt su n ⟨g, i⟩ s = .ok r s' →
    s.module.count g = i + 1 → s.Declared → s.module.edges ⟨g, i⟩ = [] →
    StraightUpTo su (s.module.code ⟨g, i⟩) →
      ∃ j, r = ⟨g, j⟩ ∧ Wrote g i j s s' ∧ Linking su g i j s s'

section Stmt

variable {su : Setup} {g : Nat}

theorem piece_straight {fin : State} {n : Node} {c : List Instr}
    (h : Piece su fin n c) : StraightUpTo su c := by
  intro hh
  refine piece_ops (P := fun op => (op ≠ .jump && op ≠ .tst) = true) ?_ hh h fun _ => rfl
  decide

theorem piece_linked {n : Node} (hn : hasBody n = false) :
    StmtLinked su g n := by
  intro i s s' r h hcount hd hnone hstraight
  obtain ⟨j, rfl, hwrote, -, -, hat⟩ := selectStmt_laid n i s s' r h hcount hd
  obtain ⟨more, hmore⟩ := hwrote.start
  have hstmt : StmtAt su s' g (fun k => s'.module.code ⟨g, k⟩) n i more j [] :=
    hat s' _ more [] (Grows.refl s') (fun _ _ _ => rfl) hmore.symm (by simp)
  obtain ⟨c, hpiece, rfl, rfl⟩ := stmtAt_piece hn hstmt
  have hsame := (writing_selectStmt hn _).edges h
  refine ⟨j, rfl, hwrote, fun q _ => hsame q, fun k hik hkj => absurd hik (by omega), ?_, ?_⟩
  · rw [hsame, hnone]
  · rw [← hmore, List.append_nil]
    exact hstraight.append (piece_straight hpiece)

theorem stmts_linked : ∀ ns : List Node, (∀ n ∈ ns, StmtLinked su g n) →
    ∀ (returned : Bool) (i : Nat) (s s' : State) (r : BlockRef),
      selectStmts su returned ns ⟨g, i⟩ s = .ok r s' → s.module.count g = i + 1 → s.Declared →
      s.module.edges ⟨g, i⟩ = [] → StraightUpTo su (s.module.code ⟨g, i⟩) →
        ∃ j, r = ⟨g, j⟩ ∧ Wrote g i j s s' ∧ Linking su g i j s s' := by
  intro ns
  induction ns with
  | nil =>
    intro _ returned i s s' r h hcount _ hnone hstraight
    rw [selectStmts] at h
    cases h
    exact ⟨i, rfl, (emitted_same rfl rfl List.prefix_rfl : Emitted _ [] s s).wrote hcount,
      fun _ _ => rfl, fun k hik hkj => absurd hik (by omega), hnone, hstraight⟩
  | cons n ns ih =>
    intro hlinked returned i s s' r h hcount hd hnone hstraight
    obtain ⟨s₀, s₁, mid, again, hm, hslots, hsig, -, hn, hns⟩ := selectStmts_cons_ok h
    have hsame : Emitted (.block ⟨g, i⟩) [] s s₀ :=
      emitted_same hm hsig (hslots ▸ List.prefix_rfl)
    obtain ⟨k, rfl, hwrote, hlink⟩ := hlinked n (by simp) i s₀ s₁ mid hn
      ((hsame.count g).trans hcount) (hsame.declared hd) (by rw [hm, hnone])
      (by rw [hm]; exact hstraight)
    obtain ⟨j, rfl, hwrote', hlink'⟩ := ih (fun m hm => hlinked m (by simp [hm])) again k s₁ s' _
      hns hwrote.count (hwrote.declared (hsame.declared hd)) hlink.last hlink.straight
    have hlink₀ : Linking su g i k s s₁ := hlink.after fun q => by rw [hm]
    exact ⟨j, rfl, ((hsame.wrote hcount).trans hwrote).trans hwrote',
      hlink₀.trans hwrote.le hlink' hwrote'⟩

theorem body_linked {stmts : List Node} (hstmts : ∀ n ∈ stmts, StmtLinked su g n) {tag : Tag}
    {i : Nat} {s s' : State} {r r' : BlockRef} (hcount : s.module.count g = i + 1)
    (hd : s.Declared) (hnone : s.module.edges ⟨g, i⟩ = [])
    (hstraight : StraightUpTo su (s.module.code ⟨g, i⟩))
    (h : selectBody su (.compound tag stmts) ⟨g, i⟩ s = .ok (r, r') s') :
    r = ⟨g, i + 1⟩ ∧ ∃ k, r' = ⟨g, k⟩ ∧ i + 1 ≤ k ∧ Wrote g i k s s' ∧ Linking su g i k s s' ∧
      s'.module.code ⟨g, i⟩ = s.module.code ⟨g, i⟩ ∧
      s'.module.edges ⟨g, i⟩ = fallEdges (s.module.code ⟨g, i⟩) ⟨g, i + 1⟩ := by
  rw [selectBody, bind_eq_ok] at h
  obtain ⟨entry, s₁, hopen, h⟩ := h
  rw [bind_eq_ok] at h
  obtain ⟨r₂, s₂, hrun, h⟩ := h
  cases h
  have hblock : openBlock ⟨g, i⟩ s = .ok r s₁ := by
    rw [openBody] at hopen
    split at hopen
    · exact hopen
    · cases hopen
  obtain ⟨rfl, hopened⟩ := openBody_eq_ok hcount hopen
  have hwrote₁ := hopened.wrote hcount
  have hlink₁ := openBlock_linking hcount hnone hstraight hblock
  obtain ⟨k, rfl, hwrote, hlink⟩ := stmts_linked stmts hstmts false (i + 1) s₁ s' _ hrun
    hwrote₁.count (hwrote₁.declared hd) hlink₁.last hlink₁.straight
  refine ⟨rfl, k, rfl, hwrote.le, hwrote₁.trans hwrote,
    hlink₁.trans (Nat.le_succ i) hlink hwrote, ?_, ?_⟩
  · rw [hwrote.before i (Nat.lt_succ_self i), hopened.code_block]
  · rw [hlink.before ⟨g, i⟩ (.inr (Nat.lt_succ_self i)), (openBlock_edges hcount hblock).1, hnone,
      List.nil_append]

theorem compound_linked {stmts : List Node} (hstmts : ∀ n ∈ stmts, StmtLinked su g n)
    (tag : Tag) : StmtLinked su g (.compound tag stmts) := by
  intro i s s' r h hcount hd hnone hstraight
  have hbody : selectBody su (.compound tag stmts) ⟨g, i⟩ s = .ok (⟨g, i + 1⟩, r) s' := by
    rw [selectStmt, bind_eq_ok] at h
    obtain ⟨entry, s₁, hopen, h⟩ := h
    rw [selectBody, bind_of_ok hopen, bind_of_ok h, (openBody_eq_ok hcount hopen).1]
    rfl
  obtain ⟨-, k, rfl, -, hwrote, hlink, -⟩ := body_linked hstmts hcount hd hnone hstraight hbody
  exact ⟨k, rfl, hwrote, hlink⟩

/-- The condition of a statement adds straight code to its block and records no edge. -/
theorem cond_linked {cond : Node} {slot : Slot} {i : Nat} {s s' : State}
    (hcount : s.module.count g = i + 1) (hd : s.Declared)
    (hstraight : StraightUpTo su (s.module.code ⟨g, i⟩))
    (h : selectExpr su (.block ⟨g, i⟩) cond s = .ok slot s') :
    ∃ c, Emitted (.block ⟨g, i⟩) c s s' ∧ StraightUpTo su (s'.module.code ⟨g, i⟩) ∧
      ∀ q, s'.module.edges q = s.module.edges q := by
  have hv : (Point.block ⟨g, i⟩).Valid s.module := by
    show i < s.module.count g
    omega
  obtain ⟨c, hemit, -, hcode⟩ := selectExpr_laid cond _ s s' slot h hv hd
  refine ⟨c, hemit, ?_, (writing_selectExpr _ cond).edges h⟩
  rw [hemit.code_here]
  exact hstraight.append (piece_straight (.expr (hcode s' (Grows.refl s'))))

theorem ifThen_linked {stmts : List Node}
    (hstmts : ∀ n ∈ stmts, StmtLinked su g n) (tag btag : Tag) (cond : Node) :
    StmtLinked su g (.ifThen tag cond (.compound btag stmts)) := by
  intro i s s' r h hcount hd hnone hstraight
  rw [selectStmt, bind_eq_ok] at h
  obtain ⟨slot, s₁, hcond, h⟩ := h
  obtain ⟨c, hemit, hstraight₁, hedges₁⟩ := cond_linked hcount hd hstraight hcond
  have hcount₁ := (hemit.count g).trans hcount
  rw [bind_eq_ok] at h
  obtain ⟨⟨bodyEntry, bodyEnd⟩, s₂, hbody, h⟩ := h
  obtain ⟨rfl, k, rfl, hik, hwrote, hlink, hcode₂, hfall⟩ := body_linked hstmts hcount₁
    (hemit.declared hd) (by rw [hedges₁, hnone]) hstraight₁ hbody
  -- The exit, and the jumps to it.
  obtain ⟨s₃, hexit, hopened₃⟩ := openBlock_spec hwrote.count
  have hwrote₃ := hopened₃.wrote hwrote.count
  have hlink₃ := hlink.trans (by omega)
    (openBlock_linking hwrote.count hlink.last hlink.straight hexit) hwrote₃
  have hv₃ : ∀ l, l ≤ k → (Point.block ⟨g, l⟩).Valid s₃.module := fun l hl => by
    show l < s₃.module.count g
    rw [hwrote₃.count]
    omega
  obtain ⟨s₄, hbranch, hemit₄, -⟩ :=
    emitBranch_spec (hv₃ i (by omega)) slot ⟨g, i + 1⟩ ⟨g, k + 1⟩
  have hv₄ := hemit₄.valid (hv₃ k (Nat.le_refl k))
  obtain ⟨s₅, hjump, hemit₅, -⟩ := jump_spec hv₄ ⟨g, k + 1⟩
  dsimp only at h
  rw [bind_of_ok hexit, bind_of_ok hbranch, bind_of_ok hjump] at h
  cases h
  have hne : (⟨g, i⟩ : BlockRef) ≠ ⟨g, k⟩ := blockRef_ne (by omega)
  obtain ⟨hfall₃, hedges₃⟩ := openBlock_edges hwrote.count hexit
  -- Control would fall out of the condition into the body, and out of the body to the exit.
  have hi : s₃.module.edges ⟨g, i⟩ = fallEdges (s₁.module.code ⟨g, i⟩) ⟨g, i + 1⟩ := by
    rw [hedges₃ _ hne, hfall]
  have hk : s₃.module.edges ⟨g, k⟩ = fallEdges (s₂.module.code ⟨g, k⟩) ⟨g, k + 1⟩ := by
    rw [hfall₃, hlink.last, List.nil_append]
  obtain ⟨htested, hedges₄⟩ :=
    emitBranch_edges (hv₃ i (by omega)) (blockRef_ne (by omega)) hbranch hi
  have hcode₄ : s₄.module.code ⟨g, k⟩ = s₂.module.code ⟨g, k⟩ := by
    rw [hemit₄.code_other hne.symm, hopened₃.code_block]
  have hjumped := jump_edges_next hv₄ hjump (by rw [hedges₄ _ hne.symm, hk, hcode₄])
  have hlink₄ : Linking su g i (k + 1) s₁ s₄ := by
    refine hlink₃.patch (Nat.le_refl i) (by omega) (fun q hq => hemit₄.code_other hq) hedges₄ ?_
    rw [hemit₄.code_here, hopened₃.code_block, hcode₂, htested]
    exact .branch hstraight₁ (by omega)
  have hlink₅ : Linking su g i (k + 1) s₁ s' := by
    refine hlink₄.patch (by omega) (Nat.lt_succ_self k) (fun q hq => hemit₅.code_other hq)
      (jump_edges hv₄ hjump).2 ?_
    rw [hemit₅.code_here, hcode₄, hjumped, hcode₄]
    exact .jump hlink.straight
  refine ⟨k + 1, rfl, ?_, ?_⟩
  · have hall := (hemit.wrote hcount).trans (hwrote.trans hwrote₃)
    exact (hall.emitted hemit₄ (Nat.le_refl i)).emitted hemit₅ (by omega)
  · exact hlink₅.after hedges₁

theorem loop_linked {stmts : List Node}
    (hstmts : ∀ n ∈ stmts, StmtLinked su g n) (tag btag : Tag) (cond : Node) :
    StmtLinked su g (.loop tag cond (.compound btag stmts)) := by
  intro i s s' r h hcount hd hnone hstraight
  obtain ⟨s₁, hheader, hopened₁⟩ := openBlock_spec hcount
  have hwrote₁ := hopened₁.wrote hcount
  have hlink₁ := openBlock_linking hcount hnone hstraight hheader
  rw [selectStmt, bind_of_ok hheader, bind_eq_ok] at h
  obtain ⟨slot, s₂, hcond, h⟩ := h
  obtain ⟨c, hemit, hstraight₂, hedges₂⟩ :=
    cond_linked hwrote₁.count (hwrote₁.declared hd) hlink₁.straight hcond
  have hwrote₂ := hemit.wrote hwrote₁.count
  rw [bind_eq_ok] at h
  obtain ⟨⟨bodyEntry, bodyEnd⟩, s₃, hbody, h⟩ := h
  obtain ⟨rfl, k, rfl, hik, hwrote, hlink, hcode₃, hfall⟩ := body_linked hstmts hwrote₂.count
    (hwrote₂.declared (hwrote₁.declared hd)) (by rw [hedges₂, hlink₁.last]) hstraight₂ hbody
  -- The jump back, the exit, and the test in the header.
  have hv₃ : (Point.block ⟨g, k⟩).Valid s₃.module := by
    show k < s₃.module.count g
    rw [hwrote.count]
    omega
  obtain ⟨s₄, hjump, hemit₄, -⟩ := jump_spec hv₃ ⟨g, i + 1⟩
  have hcount₄ := (hemit₄.count g).trans hwrote.count
  obtain ⟨s₅, hexit, hopened₅⟩ := openBlock_spec hcount₄
  have hwrote₅ := hopened₅.wrote hcount₄
  have hv₅ : (Point.block ⟨g, i + 1⟩).Valid s₅.module := by
    show i + 1 < s₅.module.count g
    rw [hwrote₅.count]
    omega
  obtain ⟨s₆, hbranch, hemit₆, -⟩ := emitBranch_spec hv₅ slot ⟨g, i + 2⟩ ⟨g, k + 1⟩
  dsimp only at h
  rw [bind_of_ok hjump, bind_of_ok hexit, bind_of_ok hbranch] at h
  cases h
  have hlink₅ := jump_openBlock_linking hwrote.count hlink.last hlink.straight hjump hexit
  have hwrote₄ := (hemit₄.wrote hwrote.count).trans hwrote₅
  have hlinkB := hlink.trans (by omega) hlink₅ hwrote₄
  have hi : s₅.module.edges ⟨g, i + 1⟩ = fallEdges (s₂.module.code ⟨g, i + 1⟩) ⟨g, i + 2⟩ := by
    rw [hlink₅.before ⟨g, i + 1⟩ (.inr hik), hfall]
  obtain ⟨htested, hedges₆⟩ := emitBranch_edges hv₅ (blockRef_ne (by omega)) hbranch hi
  have hlink₆ : Linking su g (i + 1) (k + 1) s₂ s' := by
    refine hlinkB.patch (Nat.le_refl _) (by omega) (fun q hq => hemit₆.code_other hq) hedges₆ ?_
    rw [hemit₆.code_here, hopened₅.code_block, hemit₄.code_ne (by omega), hcode₃, htested]
    exact .branch hstraight₂ (by omega)
  have hlinkH : Linking su g (i + 1) (k + 1) s₁ s' := hlink₆.after hedges₂
  have hwroteB := ((hwrote₂.trans hwrote).trans hwrote₄).emitted hemit₆ (Nat.le_refl _)
  exact ⟨k + 1, rfl, hwrote₁.trans hwroteB, hlink₁.trans (Nat.le_succ i) hlinkH hwroteB⟩

/-- **A statement links the blocks that control leaves in it.** -/
theorem stmt_linked : ∀ n : Node, StmtLinked su g n := by
  intro n
  induction n using Node.parts_induction with
  | _ n ih ih₂ =>
  cases n with
  | compound tag stmts => exact compound_linked ih tag
  | ifThen tag cond body =>
    intro i s s' r h hcount hd
    obtain ⟨btag, stmts, rfl⟩ : ∃ btag stmts, body = .compound btag stmts := by
      rw [selectStmt] at h
      exact compound_of_body hcount hd h
    exact ifThen_linked (ih₂ (.compound btag stmts) (by simp [Node.parts])) tag btag cond
      i s s' r h hcount hd
  | loop tag cond body =>
    intro i s s' r h hcount hd
    obtain ⟨btag, stmts, rfl⟩ : ∃ btag stmts, body = .compound btag stmts := by
      obtain ⟨s₁, hheader, hopened₁⟩ := openBlock_spec hcount
      have hwrote₁ := hopened₁.wrote hcount
      have h' := h
      rw [selectStmt, bind_of_ok hheader] at h'
      exact compound_of_body hwrote₁.count (hwrote₁.declared hd) h'
    exact loop_linked (ih₂ (.compound btag stmts) (by simp [Node.parts])) tag btag cond
      i s s' r h hcount hd
  | _ => exact piece_linked rfl

end Stmt

end Isel.Select
