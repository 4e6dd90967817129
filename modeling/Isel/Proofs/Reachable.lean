import Mathlib.Order.Bounds.Defs
import Isel.Flow.Reach
import Isel.Proofs.Emission

/-!
# The search for reachable blocks

`Leads` says where control may go from a block, and `Closed` which sets of blocks have the entry
of a graph and keep what their blocks lead to.  `reachable_isLeast` says that `Module.reachable`
finds the least of these sets, in any module: the edges may form cycles, and edges and targets
may be missing or lie in other graphs.

The lemmas on `unmet` follow its recursion.  What leaves the list of blocks not yet met has been
on the work list, and what a block leads to is put on the work list when the block is met.
-/

namespace Isel.Flow

/-! ## The search -/

section Search

variable {exits : Nat → List Nat} {work unseen : List Nat}

theorem unmet_subset : unmet exits work unseen ⊆ unseen := by
  fun_induction unmet exits work unseen with
  | case1 => exact List.Subset.refl _
  | case2 unseen i rest hi ih => exact List.Subset.trans ih List.erase_subset
  | case3 unseen i rest hi ih => exact ih

theorem notMem_unmet_of_work (hnodup : unseen.Nodup) :
    ∀ i ∈ work, i ∉ unmet exits work unseen := by
  fun_induction unmet exits work unseen with
  | case1 => simp
  | case2 unseen i rest hi ih =>
    intro k hk
    rcases List.mem_cons.mp hk with rfl | hk
    · exact fun hmem => hnodup.not_mem_erase (unmet_subset hmem)
    · exact ih (hnodup.erase i) k (List.mem_append_right _ hk)
  | case3 unseen i rest hi ih =>
    intro k hk
    rcases List.mem_cons.mp hk with rfl | hk
    · exact fun hmem => hi (unmet_subset hmem)
    · exact ih hnodup k hk

theorem notMem_unmet_of_exit (hnodup : unseen.Nodup) {i j : Nat} (hi : i ∈ unseen)
    (hmet : i ∉ unmet exits work unseen) (hj : j ∈ exits i) :
    j ∉ unmet exits work unseen := by
  fun_induction unmet exits work unseen with
  | case1 => exact absurd hi hmet
  | case2 unseen k rest hk ih =>
    by_cases hik : i = k
    · subst hik
      exact notMem_unmet_of_work (hnodup.erase i) j (List.mem_append_left _ hj)
    · exact ih (hnodup.erase k) ((List.mem_erase_of_ne hik).mpr hi) hmet
  | case3 unseen k rest hk ih => exact ih hnodup hi hmet

/-- What the work list has and exits keep holds of all that is met. -/
theorem of_notMem_unmet {P : Nat → Prop} (hexits : ∀ i, P i → ∀ j ∈ exits i, P j)
    (hwork : ∀ i ∈ work, P i) {i : Nat} (hi : i ∈ unseen) (hmet : i ∉ unmet exits work unseen) :
    P i := by
  fun_induction unmet exits work unseen with
  | case1 => exact absurd hi hmet
  | case2 unseen k rest hk ih =>
    have hpk : P k := hwork k List.mem_cons_self
    by_cases hik : i = k
    · exact hik ▸ hpk
    · refine ih (fun j hj => ?_) ((List.mem_erase_of_ne hik).mpr hi) hmet
      rcases List.mem_append.mp hj with hj | hj
      · exact hexits k hpk j hj
      · exact hwork j (List.mem_cons_of_mem k hj)
  | case3 unseen k rest hk ih =>
    exact ih (fun j hj => hwork j (List.mem_cons_of_mem k hj)) hi hmet

end Search

/-! ## Where control may go -/

/-- The block that an instruction names is that of its first block operand. -/
theorem Instr.target?_eq_some_iff {i : Instr} {q : BlockRef} :
    i.target? = some q ↔ ∃ before after, i.args = before ++ .block (some q) :: after ∧
      ∀ a ∈ before, ∀ t, a ≠ .block t := by
  have hnone : ∀ a : Operand, a.target? = none ↔ ∀ t, a ≠ .block t := by
    intro a
    cases a <;> simp [Operand.target?]
  have hsome : ∀ a : Operand, a.target? = some (some q) ↔ a = .block (some q) := by
    intro a
    cases a <;> simp [Operand.target?]
  rw [Instr.target?, Option.join_eq_some_iff, List.findSome?_eq_some_iff]
  constructor
  · rintro ⟨before, a, after, hargs, ha, hbefore⟩
    exact ⟨before, after, (hsome a).mp ha ▸ hargs, fun a ha => (hnone a).mp (hbefore a ha)⟩
  · rintro ⟨before, after, hargs, hbefore⟩
    exact ⟨before, _, after, hargs, rfl, fun a ha => (hnone a).mpr (hbefore a ha)⟩

/-- Control may go from the block `b`, which stands at `r`, to `q`: along a recorded edge, to the
first block operand of a jump or a call, or on to the block behind. -/
inductive Leads (r : BlockRef) (b : Block) : BlockRef → Prop
  | edge {q : BlockRef} : some q ∈ b.successors → Leads r b q
  | target {i : Instr} {before after : List Operand} {q : BlockRef} : i ∈ b.instrs →
      i.op = .jump ∨ i.op = .call → i.args = before ++ .block (some q) :: after →
      (∀ a ∈ before, ∀ t, a ≠ .block t) → Leads r b q
  | fall : (∀ i, b.instrs.getLast? = some i → i.op ≠ .ret ∧ i.op ≠ .jump) →
      Leads r b ⟨r.graph, r.index + 1⟩

theorem Block.isTerminated_eq_false {b : Block} :
    b.isTerminated = false ↔
      ∀ i, b.instrs.getLast? = some i → i.op ≠ .ret ∧ i.op ≠ .jump := by
  rw [isTerminated]
  cases b.instrs.getLast? <;> simp [Instr.isTerminator, Machine.Opcode.isTerminator]

theorem Block.mem_exits_iff {g k j : Nat} {b : Block} :
    j ∈ b.exits g k ↔ some ⟨g, j⟩ ∈ b.successors ∨
      (∃ i ∈ b.instrs, i.op.isBranch = true ∧ i.target? = some ⟨g, j⟩) ∨
      (b.isTerminated = false ∧ j = k + 1) := by
  have hnamed : ∀ l : List BlockRef,
      j ∈ (l.filter fun r => r.graph == g).map BlockRef.index ↔ ⟨g, j⟩ ∈ l := by
    intro l
    rw [List.mem_map]
    constructor
    · rintro ⟨⟨q, k⟩, hq, rfl⟩
      obtain ⟨hmem, hgraph⟩ := List.mem_filter.mp hq
      exact beq_iff_eq.mp hgraph ▸ hmem
    · exact fun h => ⟨_, List.mem_filter.mpr ⟨h, beq_self_eq_true g⟩, rfl⟩
  rw [exits, List.mem_append, hnamed, List.mem_append, or_assoc]
  refine or_congr (by simp) (or_congr ?_ ?_)
  · simp [and_assoc]
  · cases b.isTerminated <;> simp

/-- The exits of a block are the blocks of its graph that it leads to. -/
theorem Block.mem_exits {g k j : Nat} {b : Block} :
    j ∈ b.exits g k ↔ Leads ⟨g, k⟩ b ⟨g, j⟩ := by
  rw [mem_exits_iff]
  constructor
  · rintro (hedge | ⟨i, hi, hbranch, htarget⟩ | ⟨hopen, rfl⟩)
    · exact .edge hedge
    · obtain ⟨before, after, hargs, hbefore⟩ := Instr.target?_eq_some_iff.mp htarget
      refine .target hi ?_ hargs hbefore
      simpa [Machine.Opcode.isBranch] using hbranch
    · exact .fall (isTerminated_eq_false.mp hopen)
  · intro h
    generalize hq : (⟨g, j⟩ : BlockRef) = q at h
    cases h with
    | edge hedge => exact .inl hedge
    | target hi hop hargs hbefore =>
      refine .inr (.inl ⟨_, hi, ?_, Instr.target?_eq_some_iff.mpr ⟨_, _, hargs, hbefore⟩⟩)
      simpa [Machine.Opcode.isBranch] using hop
    | fall hopen =>
      cases hq
      exact .inr (.inr ⟨isTerminated_eq_false.mpr hopen, rfl⟩)

/-! ## Reachable blocks -/

namespace Module

variable {m : Module} {g : Nat}

/-- What the search asks of a place of the graph `g`. -/
def exitsAt (m : Module) (g i : Nat) : List Nat :=
  (m.block? ⟨g, i⟩).elim [] fun b => b.exits g i

theorem mem_exitsAt {i j : Nat} :
    j ∈ m.exitsAt g i ↔ ∃ b, m.block? ⟨g, i⟩ = some b ∧ Leads ⟨g, i⟩ b ⟨g, j⟩ := by
  rw [exitsAt]
  cases m.block? ⟨g, i⟩ with
  | none => simp
  | some b => simp [Block.mem_exits]

theorem mem_reachable {i : Nat} : i ∈ m.reachable g ↔
    i < m.count g ∧ i ∉ unmet (m.exitsAt g) [0] (List.range (m.count g)) := by
  rw [reachable, List.mem_filter, List.mem_range, Bool.not_eq_true', List.contains_eq_mem,
    decide_eq_false_iff_not]
  rfl

theorem reachable_ascending : (m.reachable g).Pairwise (· < ·) :=
  List.pairwise_lt_range.filter _

theorem reachable_eq_range (h : ∀ i, i < m.count g → i ∈ m.reachable g) :
    m.reachable g = List.range (m.count g) := by
  rw [reachable]
  refine List.filter_eq_self.mpr fun i hi => ?_
  exact (List.mem_filter.mp (h i (List.mem_range.mp hi))).2

theorem zero_mem_reachable (h : 0 < m.count g) : 0 ∈ m.reachable g :=
  mem_reachable.mpr ⟨h, notMem_unmet_of_work List.nodup_range 0 List.mem_cons_self⟩

theorem mem_reachable_of_leads {i j : Nat} {b : Block} (hi : i ∈ m.reachable g)
    (hb : m.block? ⟨g, i⟩ = some b) (hleads : Leads ⟨g, i⟩ b ⟨g, j⟩) (hj : j < m.count g) :
    j ∈ m.reachable g := by
  obtain ⟨hlt, hmet⟩ := mem_reachable.mp hi
  exact mem_reachable.mpr ⟨hj, notMem_unmet_of_exit List.nodup_range (List.mem_range.mpr hlt)
    hmet (mem_exitsAt.mpr ⟨b, hb, hleads⟩)⟩

/-- What holds of the entry and is passed on from block to block holds of the reachable ones. -/
theorem reachable_induction {P : Nat → Prop} (hentry : P 0)
    (hnext : ∀ i b, P i → m.block? ⟨g, i⟩ = some b → ∀ j, Leads ⟨g, i⟩ b ⟨g, j⟩ → P j) :
    ∀ i ∈ m.reachable g, P i := by
  intro i hi
  obtain ⟨hlt, hmet⟩ := mem_reachable.mp hi
  refine of_notMem_unmet (fun k hk j hj => ?_) (fun k hk => ?_) (List.mem_range.mpr hlt) hmet
  · obtain ⟨b, hb, hleads⟩ := mem_exitsAt.mp hj
    exact hnext k b hk hb j hleads
  · exact List.mem_singleton.mp hk ▸ hentry

/-- The set has the entry of the graph `g`, if there is one, and with a block of the graph the
blocks of the graph that it leads to. -/
structure Closed (m : Module) (g : Nat) (S : Set BlockRef) : Prop where
  entry : ∀ r, m.entry? g = some r → r ∈ S
  next : ∀ r b, r ∈ S → r.graph = g → m.block? r = some b → ∀ q, Leads r b q → q.graph = g →
    (m.block? q).isSome → q ∈ S

theorem isSome_block? {r : BlockRef} : (m.block? r).isSome ↔ r.index < m.count r.graph := by
  simp [block?, count]

theorem exists_block? {i : Nat} (h : i < m.count g) : ∃ b, m.block? ⟨g, i⟩ = some b :=
  Option.isSome_iff_exists.mp (isSome_block?.mpr h)

theorem entry?_eq_some {r : BlockRef} : m.entry? g = some r ↔ 0 < m.count g ∧ r = ⟨g, 0⟩ := by
  unfold entry? count
  cases (m.graph g).blocks <;> simp [eq_comm]

/-- **The search finds exactly the blocks that control can reach.**  It lists, each once and in
ascending order, the places of the least closed set. -/
theorem reachable_isLeast (m : Module) (g : Nat) :
    IsLeast {S | m.Closed g S} {r | r.graph = g ∧ r.index ∈ m.reachable g} ∧
      (m.reachable g).Pairwise (· < ·) := by
  refine ⟨⟨⟨fun r hr => ?_, fun r b hr hg hb q hleads hq hsome => ?_⟩, fun S hS r hr => ?_⟩,
    reachable_ascending⟩
  · obtain ⟨hpos, rfl⟩ := entry?_eq_some.mp hr
    exact ⟨rfl, zero_mem_reachable hpos⟩
  · obtain ⟨rfl, hmem⟩ := hr
    obtain ⟨_, k⟩ := q
    subst hq
    exact ⟨rfl, mem_reachable_of_leads hmem hb hleads (isSome_block?.mp hsome)⟩
  · obtain ⟨rfl, hmem⟩ := hr
    -- Exits may lie outside the graph, so the invariant asks for a block.
    have hall := reachable_induction (m := m) (g := r.graph)
      (P := fun i => i < m.count r.graph → ⟨r.graph, i⟩ ∈ S)
      (fun hpos => hS.entry _ (entry?_eq_some.mpr ⟨hpos, rfl⟩))
      (fun i b hi hb j hleads hj => ?_)
    · exact hall r.index hmem (mem_reachable.mp hmem).1
    · have hlt := isSome_block?.mp (Option.isSome_iff_exists.mpr ⟨b, hb⟩)
      exact hS.next _ b (hi hlt) rfl hb _ hleads rfl (isSome_block?.mpr hj)

end Module

end Isel.Flow
