import Isel.Proofs.Allotment
import Isel.Proofs.Assignment
import Isel.Proofs.Construction
import Isel.Proofs.Grammar
import Isel.Proofs.Operands

/-!
# Slots are assigned once, and densely

Between two states of a selection, `Allots su L s s'` says that the nodes with the labels `L` got
the next slots, in this order; that what came into the module defines slots only from among these,
each one once; and that it names no slot beyond them, as long as hooks name slots that they were
asked about (`NamesAsked`).  This goes from part to part by `Allots.trans`.  What an expression
defines is its own slot, which it gets before its operands get theirs and writes behind them
(`Allots.own`).

Nothing here asks whether the blocks that are written to are there: to a block that is not there
nothing is written (`Puts`).
-/

namespace Isel.Flow.Module

/-- The instructions of the global sequence, and those of the functions in order. -/
def instrs (m : Module) : List Instr :=
  m.globals ++ m.functions.flatMap fun f => (m.graph f.graph).instrs

theorem instrs_graph (m : Module) (g : Nat) :
    (m.graph g).instrs = (List.range (m.count g)).flatMap fun k => m.code ⟨g, k⟩ := by
  have hblocks : (m.graph g).blocks.map Block.instrs =
      (List.range (m.count g)).map fun k => m.code ⟨g, k⟩ := by
    refine List.ext_getElem (by simp [count]) fun k hk _ => ?_
    have hlt : k < (m.graph g).blocks.length := by simpa using hk
    simp [code, block?, List.getElem?_eq_getElem hlt]
  rw [Graph.instrs, List.flatMap_def, hblocks, ← List.flatMap_def]

end Isel.Flow.Module

namespace Isel.Select

open Isel.Flow Isel.Syntax Isel.Proofs

/-! ## Points of a module -/

/-- The global sequence and the blocks of the functions. -/
def points (m : Module) : List Point :=
  .globals :: m.functions.flatMap fun f =>
    (List.range (m.count f.graph)).map fun k => .block ⟨f.graph, k⟩

theorem instrs_eq (m : Module) : m.instrs = (points m).flatMap (Point.code m) := by
  rw [points, List.flatMap_cons, List.flatMap_assoc, Module.instrs]
  congr 1
  refine List.flatMap_congr fun f _ => ?_
  rw [Module.instrs_graph, List.flatMap_map]
  rfl

theorem nodup_points {m : Module} (h : (m.functions.map Flow.Function.graph).Nodup) :
    (points m).Nodup := by
  rw [points, List.nodup_cons, List.nodup_flatMap]
  refine ⟨by simp, fun f _ => ?_, ?_⟩
  · refine List.Nodup.map (fun j k hjk => ?_) List.nodup_range
    cases hjk
    rfl
  · refine (List.pairwise_map.mp h).imp fun {f f'} hne pt hpt hpt' => ?_
    obtain ⟨j, -, rfl⟩ := List.mem_map.mp hpt
    obtain ⟨k, -, hk⟩ := List.mem_map.mp hpt'
    injection hk with hk
    injection hk with hk
    exact hne hk.symm

def Point.defs (m : Module) (pt : Point) : List Slot := (pt.code m).filterMap Instr.def?

/-- No slot stands twice, at one point or at two. -/
structure Once (D : Point → List Slot) : Prop where
  nodup : ∀ q, (D q).Nodup
  apart : ∀ {q q' k}, k ∈ D q → k ∈ D q' → q = q'

theorem Once.append {D E : Point → List Slot} (hD : Once D) (hE : Once E)
    (h : ∀ {q q' k}, k ∈ D q → k ∉ E q') : Once fun q => D q ++ E q where
  nodup q := (hD.nodup q).append (hE.nodup q) fun _ hk => h hk
  apart {q q' k} hk hk' := by
    rcases List.mem_append.mp hk with hk | hk <;> rcases List.mem_append.mp hk' with hk' | hk'
    · exact hD.apart hk hk'
    · exact absurd hk' (h hk)
    · exact absurd hk (h hk')
    · exact hE.apart hk hk'

theorem Once.nodup_instrs {m : Module} (h : Once fun q => q.defs m)
    (hm : (m.functions.map Flow.Function.graph).Nodup) : (m.instrs.filterMap Instr.def?).Nodup := by
  rw [instrs_eq, List.filterMap_flatMap, List.nodup_flatMap]
  refine ⟨fun q _ => h.nodup q, (nodup_points hm).imp fun {q q'} hne k hk hk' => ?_⟩
  exact hne (h.apart hk hk')

/-! ## What comes into a module -/

/-- What comes in defines slots that `R` holds of, each one once. -/
def Defines (R : Slot → Prop) (m m' : Module) : Prop :=
  ∃ D : Point → List Slot, (∀ q : Point, q.defs m' = q.defs m ++ D q) ∧ Once D ∧
    ∀ q, ∀ k ∈ D q, R k

section Defines

variable {R S : Slot → Prop} {m m₁ m' : Module}

theorem Defines.mono (h : Defines R m m') (hR : ∀ k, R k → S k) : Defines S m m' := by
  obtain ⟨D, hD, honce, hk⟩ := h
  exact ⟨D, hD, honce, fun q k hmem => hR k (hk q k hmem)⟩

/-- **One part behind another**, if they define different slots. -/
theorem Defines.trans (h₁ : Defines R m m₁) (h₂ : Defines S m₁ m') (hRS : ∀ k, R k → ¬S k) :
    Defines (fun k => R k ∨ S k) m m' := by
  obtain ⟨D, hD, honce₁, hR⟩ := h₁
  obtain ⟨E, hE, honce₂, hS⟩ := h₂
  refine ⟨fun q => D q ++ E q, ?_, ?_, ?_⟩
  · intro q
    rw [hE, hD, List.append_assoc]
  · exact honce₁.append honce₂ fun hk hk' => hRS _ (hR _ _ hk) (hS _ _ hk')
  · intro q k hk
    exact (List.mem_append.mp hk).imp (hR q k) (hS q k)

theorem defines_of_code (h : ∀ q : Point, q.code m' = q.code m) : Defines R m m' := by
  have hnone : ∀ {k : Slot}, k ∉ ([] : List Slot) := List.not_mem_nil
  refine ⟨fun _ => [], fun q => ?_, ⟨fun _ => List.nodup_nil, fun hk => absurd hk hnone⟩,
    fun _ _ hk => absurd hk hnone⟩
  rw [Point.defs, h, Point.defs, List.append_nil]

end Defines

/-- If anything comes in, it is `out` at the point. -/
def Puts (pt : Point) (out : List Instr) (m m' : Module) : Prop :=
  (∀ q : Point, q.code m' = q.code m) ∨
    ∀ q : Point, q.code m' = q.code m ++ if q = pt then out else []

section Puts

variable {pt : Point} {out : List Instr} {m m' : Module}

theorem Emitted.puts {s s' : State} (h : Emitted pt out s s') : Puts pt out s.module s'.module := by
  refine .inr fun q => ?_
  split
  · next hq => rw [hq, h.here]
  · next hq => rw [h.elsewhere q hq, List.append_nil]

theorem Point.code_emit_of_not_valid (h : ¬pt.Valid m) (i : Instr) (q : Point) :
    q.code (pt.emit m i) = q.code m := by
  cases pt with
  | globals => exact absurd trivial h
  | block r =>
    cases q with
    | globals => rfl
    | block q =>
      have hnone : m.block? r = none := List.getElem?_eq_none (Nat.le_of_not_lt h)
      show (m.emit r i).code q = m.code q
      rw [Module.code, Module.emit, Module.block?_modifyBlock, Module.code]
      split
      · next hq => rw [hq, hnone]; rfl
      · rfl

theorem puts_foldl (s : State) (pt : Point) (out : List Instr) :
    Puts pt out s.module (out.foldl (fun m i => pt.emit m i) s.module) := by
  by_cases hv : pt.Valid s.module
  · exact (emitted_foldl out s hv).puts
  · left
    intro q
    have hall : ∀ m : Module, ¬pt.Valid m →
        q.code (out.foldl (fun m i => pt.emit m i) m) = q.code m := by
      induction out with
      | nil => exact fun _ _ => rfl
      | cons i out ih =>
        intro m hm
        have hnext : ¬pt.Valid (pt.emit m i) := fun hv =>
          hm (hv.of_count fun g => (pt.count_emit m i g).symm)
        rw [List.foldl_cons, ih _ hnext, Point.code_emit_of_not_valid hm]
    exact hall s.module hv

theorem puts_emit (s : State) (pt : Point) (i : Instr) :
    Puts pt [i] s.module (s.emit pt i).module := puts_foldl s pt [i]

theorem Puts.has (h : Puts pt out m m') {i : Instr} (hi : Has m' i) : Has m i ∨ i ∈ out := by
  obtain ⟨q, hi⟩ := hi
  rcases h with h | h
  · rw [h] at hi
    exact .inl ⟨q, hi⟩
  · rw [h] at hi
    split at hi
    · exact (List.mem_append.mp hi).imp_left fun hi => ⟨q, hi⟩
    · rw [List.append_nil] at hi
      exact .inl ⟨q, hi⟩

theorem Puts.defines (h : Puts pt out m m') {R : Slot → Prop}
    (hnodup : (out.filterMap Instr.def?).Nodup) (hR : ∀ k ∈ out.filterMap Instr.def?, R k) :
    Defines R m m' := by
  rcases h with h | h
  · exact defines_of_code h
  · refine ⟨fun q => if q = pt then out.filterMap Instr.def? else [], ?_, ⟨?_, ?_⟩, ?_⟩
    · intro q
      dsimp only
      rw [Point.defs, h, List.filterMap_append, Point.defs]
      split <;> rfl
    · intro q
      split
      · exact hnodup
      · exact List.nodup_nil
    · intro q q' k hk hk'
      split at hk
      · split at hk'
        · next hq hq' => rw [hq, hq']
        · cases hk'
      · cases hk
    · intro q k hk
      dsimp only at hk
      split at hk
      · exact hR k hk
      · cases hk

end Puts

/-! ## Hooks -/

def Request.slots : Request → List Slot
  | .paramsIn slots | .argsOut slots => slots
  | .resultIn slot | .resultOut slot | .print slot | .scan slot => [slot]

/-- The slots that arrive on a request, in the order that they leave the stack. -/
def Request.arriving : Request → List Slot
  | .paramsIn params => params.reverse
  | .resultIn dst => [dst]
  | _ => []

/-- Values cross a call on the stack or not at all, and input and output do nothing but push. -/
structure PushingHooks (su : Setup) : Prop where
  convention : su.hooks.convention = .refuse ∨ su.hooks.convention = .stack
  io : ∀ request out, request.isIO = true → Answered su request out →
    ∀ i ∈ out, i.op = .noOp ∨ i.op = .push

/-- Input and output name only slots that a hook was asked about, now or before. -/
def NamesAsked (su : Setup) : Prop :=
  ∀ served request out, request.isIO = true → su.hooks.answer served request = .ok out →
    ∀ i ∈ out, ∀ k, .slot k ∈ i.args → ∃ q ∈ request :: served, k ∈ q.slots

/-- The slots that hooks were asked about are handed out. -/
def Asked (s : State) : Prop := ∀ q ∈ s.served, ∀ k ∈ q.slots, k < s.slots.count

theorem Asked.mono {s s' : State} (h : Asked s) (hserved : s'.served = s.served)
    (hle : s.slots.count ≤ s'.slots.count) : Asked s' := fun q hq k hk =>
  Nat.lt_of_lt_of_le (h q (hserved ▸ hq) k hk) hle

/-- The instruction names slots below `n` only. -/
def Named (n : Nat) (i : Instr) : Prop := ∀ k, .slot k ∈ i.args → k < n

theorem Named.mono {n n' : Nat} {i : Instr} (h : Named n i) (hle : n ≤ n') : Named n' i :=
  fun k hk => Nat.lt_of_lt_of_le (h k hk) hle

theorem filterMap_def?_stackInstrs (request : Request) :
    (Hook.stackInstrs request).filterMap Instr.def? = request.arriving := by
  cases request with
  | paramsIn params =>
    rw [Hook.stackInstrs, List.filterMap_map]
    exact List.filterMap_some
  | argsOut args =>
    rw [Hook.stackInstrs, List.filterMap_map]
    exact List.filterMap_eq_nil_iff.mpr fun _ _ => rfl
  | _ => rfl

theorem slots_stackInstrs (request : Request) :
    ∀ i ∈ Hook.stackInstrs request, ∀ k, .slot k ∈ i.args → k ∈ request.slots := by
  intro i hi k hk
  cases request with
  | paramsIn params =>
    obtain ⟨s, hs, rfl⟩ := List.mem_map.mp hi
    cases List.mem_singleton.mp hk
    exact List.mem_reverse.mp hs
  | argsOut args =>
    obtain ⟨s, hs, rfl⟩ := List.mem_map.mp hi
    cases List.mem_singleton.mp hk
    exact hs
  | resultIn | resultOut =>
    rw [List.mem_singleton.mp hi] at hk
    cases List.mem_singleton.mp hk
    exact List.mem_singleton_self _
  | print | scan => cases hi

/-- What hooks answer: they define what arrives, and name what they were asked about. -/
theorem PushingHooks.answered {su : Setup} (hh : PushingHooks su) {served : List Request}
    {request : Request} {out : List Instr} (h : su.hooks.answer served request = .ok out) :
    out.filterMap Instr.def? = request.arriving ∧
      (NamesAsked su → ∀ i ∈ out, ∀ k, .slot k ∈ i.args →
        ∃ q ∈ request :: served, k ∈ q.slots) := by
  cases hio : request.isIO with
  | true =>
    refine ⟨?_, fun hnames => hnames served request out hio h⟩
    have harriving : request.arriving = [] := by
      cases request <;> first | rfl | cases hio
    rw [harriving, List.filterMap_eq_nil_iff]
    -- Neither opcode writes a slot, whatever its operands are.
    intro i hi
    rcases hh.io request out hio ⟨served, h⟩ i hi with hop | hop <;> rw [Instr.def?, hop] <;> rfl
  | false =>
    rw [answered_stack_or_refuse hh.convention.symm hio ⟨served, h⟩]
    exact ⟨filterMap_def?_stackInstrs request, fun _ i hi k hk =>
      ⟨request, List.mem_cons_self, slots_stackInstrs request i hi k hk⟩⟩

/-! ## Slots that are handed out -/

/-- The nodes `L` got the next slots, and what came into the module defines slots from among these,
each one once, and names none beyond them. -/
structure Allots (su : Setup) (L : List Label) (s s' : State) : Prop where
  owners : s'.slots.owners = s.slots.owners ++ L.map some
  nodup : s.slots.owners.Nodup → s'.slots.owners.Nodup
  defines : Defines (fun k => s.slots.count ≤ k ∧ k < s'.slots.count) s.module s'.module
  named : NamesAsked su → Asked s →
    Asked s' ∧ ∀ i, Has s'.module i → Has s.module i ∨ Named s'.slots.count i

section Allots

variable {su : Setup} {L M : List Label} {s s₁ s' : State} {pt : Point} {out : List Instr}

theorem Allots.count (h : Allots su L s s') : s'.slots.count = s.slots.count + L.length := by
  rw [Slots.count, h.owners, List.length_append, List.length_map]
  rfl

theorem Allots.count_le (h : Allots su L s s') : s.slots.count ≤ s'.slots.count := by
  rw [h.count]
  exact Nat.le_add_right ..

/-- **One part behind another.** -/
theorem Allots.trans (h₁ : Allots su L s s₁) (h₂ : Allots su M s₁ s') :
    Allots su (L ++ M) s s' where
  owners := by rw [h₂.owners, h₁.owners, List.map_append, List.append_assoc]
  nodup h := h₂.nodup (h₁.nodup h)
  defines := by
    have hle₁ := h₁.count_le
    have hle₂ := h₂.count_le
    refine (h₁.defines.trans h₂.defines ?_).mono ?_
    · rintro k ⟨-, hlt⟩ ⟨hle, -⟩
      exact Nat.not_lt_of_le hle hlt
    · rintro k (⟨hle, hlt⟩ | ⟨hle, hlt⟩)
      · exact ⟨hle, Nat.lt_of_lt_of_le hlt hle₂⟩
      · exact ⟨Nat.le_trans hle₁ hle, hlt⟩
  named hnames hasked := by
    obtain ⟨hasked₁, hnamed₁⟩ := h₁.named hnames hasked
    obtain ⟨hasked', hnamed'⟩ := h₂.named hnames hasked₁
    refine ⟨hasked', fun i hi => ?_⟩
    rcases hnamed' i hi with hi | hi
    · exact (hnamed₁ i hi).imp_right fun hi => hi.mono h₂.count_le
    · exact .inr hi

theorem Puts.allots (h : Puts pt out s.module s'.module) (hslots : s'.slots = s.slots)
    (hdef : out.filterMap Instr.def? = [])
    (hnamed : NamesAsked su → Asked s → Asked s' ∧ ∀ i ∈ out, Named s.slots.count i) :
    Allots su [] s s' where
  owners := by rw [hslots, List.map_nil, List.append_nil]
  nodup h := hslots ▸ h
  defines := h.defines (hdef ▸ List.nodup_nil) (by simp [hdef])
  named hnames hasked := by
    obtain ⟨hasked', hnamed⟩ := hnamed hnames hasked
    refine ⟨hasked', fun i hi => ?_⟩
    rw [hslots]
    exact (h.has hi).imp_right (hnamed i)

theorem Asked.kept (hslots : s'.slots = s.slots) (hserved : s'.served = s.served) (h : Asked s) :
    Asked s' := h.mono hserved (by rw [hslots])

theorem allots_of_code (h : ∀ q : Point, q.code s'.module = q.code s.module)
    (hslots : s'.slots = s.slots) (hserved : s'.served = s.served) : Allots su [] s s' := by
  have hputs : Puts .globals [] s.module s'.module := .inl h
  exact hputs.allots hslots rfl fun _ hasked => ⟨hasked.kept hslots hserved, by simp⟩

theorem Emitted.allots (h : Emitted pt [] s s') (hslots : s'.slots = s.slots)
    (hserved : s'.served = s.served) : Allots su [] s s' :=
  h.puts.allots hslots rfl fun _ hasked => ⟨hasked.kept hslots hserved, by simp⟩

theorem allots_same (hm : s'.module = s.module) (hslots : s'.slots = s.slots)
    (hserved : s'.served = s.served) : Allots su [] s s' :=
  allots_of_code (fun q => by rw [hm]) hslots hserved

theorem allots_remarked (w : Settings.Warning) (pos : Source.Position) (message : String)
    (s : State) : Allots su [] s (s.remarked su w pos message) :=
  allots_same (remarked_module ..) (remarked_slots ..) (remarked_served ..)

theorem count_withOwner (s : State) (l : Label) :
    (s.withOwner l).slots.count = s.slots.count + 1 := List.length_append

/-- Whatever comes behind the allocation of a slot, the slot is among those handed out. -/
theorem Allots.lt_count {l : Label} (h : Allots su L (s.withOwner l) s₁) :
    s.slots.count < s₁.slots.count :=
  Nat.le_trans (Nat.le_of_eq (count_withOwner s l).symm) h.count_le

/-- **A node defines its own slot**: it gets the slot before other nodes get theirs, and the code
behind theirs defines it, if any does. -/
theorem Allots.own {l : Label} (hfree : s.slots.slot? (some l) = none)
    (h : Allots su L (s.withOwner l) s₁) (hslots : s'.slots = s₁.slots)
    (hputs : Puts pt out s₁.module s'.module)
    (hdef : List.Sublist (out.filterMap Instr.def?) [s.slots.count])
    (hnamed : NamesAsked su → Asked s₁ → Asked s' ∧ ∀ i ∈ out, Named s₁.slots.count i) :
    Allots su (l :: L) s s' := by
  refine ⟨?_, ?_, ?_, ?_⟩
  · rw [hslots, h.owners, List.map_cons, List.append_cons]
    rfl
  · intro hnodup
    rw [hslots]
    refine h.nodup (hnodup.append (List.nodup_singleton _) ?_)
    rw [Slots.slot?, List.findIdx?_eq_none_iff] at hfree
    intro owner howner hself
    rw [List.mem_singleton.mp hself] at howner
    simpa using hfree _ howner
  · -- The node's own slot lies right below those of the others, though it is defined last.
    have hself : Defines (fun k => k = s.slots.count) s₁.module s'.module :=
      hputs.defines (hdef.nodup (List.nodup_singleton _)) fun k hk =>
        List.mem_singleton.mp (hdef.subset hk)
    rw [hslots]
    refine (h.defines.trans hself ?_).mono ?_
    · rintro k ⟨hk, -⟩ rfl
      rw [count_withOwner] at hk
      exact Nat.not_succ_le_self _ hk
    · rintro k (⟨hk, hk'⟩ | rfl)
      · rw [count_withOwner] at hk
        exact ⟨Nat.le_of_succ_le hk, hk'⟩
      · exact ⟨Nat.le_refl _, h.lt_count⟩
  · intro hnames hasked
    have howner : Asked (s.withOwner l) :=
      hasked.mono rfl (by rw [count_withOwner]; exact Nat.le_succ _)
    obtain ⟨hasked₁, hnamed₁⟩ := h.named hnames howner
    obtain ⟨hasked', hnamed'⟩ := hnamed hnames hasked₁
    refine ⟨hasked', fun i hi => ?_⟩
    rw [hslots]
    rcases hputs.has hi with hi | hi
    · exact hnamed₁ i hi
    · exact .inr (hnamed' i hi)

/-- A node gets a slot, others get theirs, and an instruction behind theirs defines it. -/
theorem Allots.defined {tag : Tag} {slot : Slot} {s₀ : State} {i : Instr}
    (h : Allots su L s₀ s₁) (hslot : allocate tag s = .ok slot s₀) (pt : Point)
    (hdef : i.def? = some slot) (hnamed : ∀ k, .slot k ∈ i.args → k = slot ∨ k < s₁.slots.count) :
    slot < s₁.slots.count ∧ Allots su (tag.label :: L) s (s₁.emit pt i) := by
  obtain ⟨hfree, rfl, rfl⟩ := allocate_eq_ok.mp hslot
  refine ⟨h.lt_count, h.own hfree rfl (puts_emit s₁ pt i) ?_ ?_⟩
  · simp [hdef]
  · refine fun _ hasked => ⟨hasked.kept rfl rfl, List.forall_mem_singleton.mpr fun k hk => ?_⟩
    rcases hnamed k hk with rfl | hk
    · exact h.lt_count
    · exact hk

/-! ## Steps -/

theorem serve_puts (hh : PushingHooks su) {pos : Source.Position} {request : Request} {u : Unit}
    (h : serve su pos pt request s = .ok u s') :
    ∃ out, Puts pt out s.module s'.module ∧ s'.slots = s.slots ∧
      out.filterMap Instr.def? = request.arriving ∧
      ((∀ k ∈ request.slots, k < s.slots.count) → NamesAsked su → Asked s →
        Asked s' ∧ ∀ i ∈ out, Named s.slots.count i) := by
  obtain ⟨out, hout, rfl⟩ := serve_eq_ok.mp h
  obtain ⟨hdef, hslots⟩ := hh.answered hout
  refine ⟨out, puts_foldl s pt out, rfl, hdef, fun hlt hnames hasked => ?_⟩
  have hall : ∀ q ∈ request :: s.served, ∀ k ∈ q.slots, k < s.slots.count :=
    List.forall_mem_cons.mpr ⟨hlt, hasked⟩
  constructor
  · intro q hq
    rcases List.mem_append.mp hq with hq | hq
    · exact hasked q hq
    · rw [List.mem_singleton.mp hq]
      exact hlt
  · intro i hi k hk
    obtain ⟨q, hq, hmem⟩ := hslots hnames i hi k hk
    exact hall q hq k hmem

theorem serve_allots (hh : PushingHooks su) {pos : Source.Position} {request : Request} {u : Unit}
    (h : serve su pos pt request s = .ok u s') (harriving : request.arriving = [])
    (hlt : ∀ k ∈ request.slots, k < s.slots.count) : Allots su [] s s' := by
  obtain ⟨out, hputs, hslots, hdef, hnamed⟩ := serve_puts hh h
  exact hputs.allots hslots (hdef.trans harriving) (hnamed hlt)

theorem emit_allots (s : State) (pt : Point) {i : Instr} (hdef : i.def? = none)
    (hnamed : ∀ k, .slot k ∈ i.args → k < s.slots.count) : Allots su [] s (s.emit pt i) := by
  refine (puts_emit s pt i).allots rfl (by simp [hdef]) fun _ hasked => ?_
  exact ⟨hasked.kept rfl rfl, List.forall_mem_singleton.mpr hnamed⟩

theorem Point.code_openedModule (m : Module) (r : BlockRef) (q : Point) :
    q.code (openedModule m r) = q.code m := by
  have hadd : q.code (m.addBlock r.graph "" []).1 = q.code m := by
    cases q with
    | globals => exact (m.addBlock_rest r.graph).2.2.1
    | block q =>
      by_cases hg : r.graph < m.graphs.length
      · exact Module.code_addBlock hg q
      · have hlen : ¬r.graph < (m.drawNameFor r.graph).1.graphs.length := by
          rwa [(m.drawNameFor_rest r.graph).1]
        show (m.addBlock r.graph "" []).1.code q = m.code q
        rw [Module.addBlock_eq, List.modify_eq_self (Nat.le_of_not_lt hlen)]
        show (m.drawNameFor r.graph).1.code q = m.code q
        rw [Module.code, Module.block?, Module.blocks_drawNameFor]
        rfl
  simp only [openedModule]
  split
  · exact hadd
  · rw [Point.code_connect, hadd]

theorem openBlock_allots {r q : BlockRef} (h : openBlock r s = .ok q s') : Allots su [] s s' := by
  rw [openBlock_apply] at h
  cases h
  exact allots_of_code (Point.code_openedModule s.module r) rfl rfl

theorem jump_allots {r q : BlockRef} {u : Unit} (h : jump r q s = .ok u s') :
    Allots su [] s s' := by
  have hemit : Allots su [] s (s.emit (.block r) (jumpTo q)) :=
    emit_allots s _ rfl (by simp [jumpTo])
  cases h
  refine hemit.trans (allots_of_code (fun pt => ?_) rfl rfl)
  dsimp only
  split
  · rfl
  · exact Point.code_connect ..

theorem emitBranch_allots {r yes no : BlockRef} {cond : Slot} {u : Unit}
    (h : emitBranch r cond yes no s = .ok u s') (hlt : cond < s.slots.count) :
    Allots su [] s s' := by
  rw [emitBranch, emit_bind_apply, bind_eq_ok] at h
  obtain ⟨_, s₁, hyes, hno⟩ := h
  have htest : Allots su [] s (s.emit (.block r) ⟨.tst, [.slot cond, .imm 1]⟩) :=
    emit_allots s _ rfl (by simpa using hlt)
  exact (htest.trans (jump_allots hyes)).trans (jump_allots hno)

/-! ## Expressions -/

theorem slot?_lt_count {slots : Slots} {owner : Option Label} {k : Slot}
    (h : slots.slot? owner = some k) : k < slots.count :=
  (List.findIdx?_eq_some_iff_getElem.mp h).1

/-- An expression gets the next slots, for itself and for what is below it. -/
def ExprAllots (su : Setup) (n : Node) : Prop :=
  ∀ (pt : Point) (s s' : State) (slot : Slot), selectExpr su pt n s = .ok slot s' →
    slot < s'.slots.count ∧ Allots su n.allotted s s'

theorem selectArgs_allots : ∀ ns : List Node, (∀ n ∈ ns, ExprAllots su n) →
    ∀ (pt : Point) (s s' : State) (slots : List Slot), selectArgs su pt ns s = .ok slots s' →
      (∀ k ∈ slots, k < s'.slots.count) ∧ Allots su (Node.allottedAll ns) s s' := by
  intro ns
  induction ns with
  | nil =>
    intro _ pt s s' slots h
    cases h
    exact ⟨by simp, allots_same rfl rfl rfl⟩
  | cons n ns ih =>
    intro hns pt s s' slots h
    rw [List.forall_mem_cons] at hns
    rw [selectArgs, bind_eq_ok] at h
    obtain ⟨slot, s₁, hn, h⟩ := h
    rw [bind_eq_ok] at h
    obtain ⟨rest, s₂, hrest, h⟩ := h
    cases h
    obtain ⟨hlt, hallots⟩ := hns.1 pt s s₁ slot hn
    obtain ⟨hlts, hallots'⟩ := ih hns.2 pt s₁ s' rest hrest
    rw [Node.allottedAll]
    exact ⟨List.forall_mem_cons.mpr ⟨Nat.lt_of_lt_of_le hlt hallots'.count_le, hlts⟩,
      hallots.trans hallots'⟩

theorem emitCall_allots (hh : PushingHooks su) {tag : Tag} {callee : String}
    {entry : Option BlockRef} {args : List Slot} {slot : Slot} {u : Unit}
    (h : emitCall su pt tag callee entry args slot s = .ok u s')
    (hargs : ∀ k ∈ args, k < s.slots.count) (hslot : slot < s.slots.count) :
    ∃ s₁ out, Allots su [] s s₁ ∧ Puts pt out s₁.module s'.module ∧ s'.slots = s₁.slots ∧
      List.Sublist (out.filterMap Instr.def?) [slot] ∧
      (NamesAsked su → Asked s₁ → Asked s' ∧ ∀ i ∈ out, Named s₁.slots.count i) := by
  have hcall : ∀ s₀ : State, slot < s₀.slots.count → (do
      emit pt .call [.block entry]
      if ← hasResult callee then serve su tag.pos pt (.resultIn slot) : Selection Unit) s₀ =
        .ok u s' → ∃ s₁ out, Allots su [] s₀ s₁ ∧ Puts pt out s₁.module s'.module ∧
          s'.slots = s₁.slots ∧ List.Sublist (out.filterMap Instr.def?) [slot] ∧
          (NamesAsked su → Asked s₁ → Asked s' ∧ ∀ i ∈ out, Named s₁.slots.count i) := by
    intro s₀ hslot h
    have hemit : Allots su [] s₀ (s₀.emit pt ⟨.call, [.block entry]⟩) :=
      emit_allots s₀ pt rfl (by simp)
    rw [emit_bind_apply, bind_eq_ok] at h
    obtain ⟨result, s₁, hresult, h⟩ := h
    rw [hasResult_apply] at hresult
    cases hresult
    split at h
    · obtain ⟨out, hputs, hslots, hdef, hnamed⟩ := serve_puts hh h
      refine ⟨_, out, hemit, hputs, hslots, ?_, hnamed (List.forall_mem_singleton.mpr hslot)⟩
      rw [hdef]
      exact List.Sublist.refl _
    · -- Without a result the slot is handed out and never defined.
      cases h
      exact ⟨_, [], hemit, .inl fun _ => rfl, rfl, List.nil_sublist _,
        fun _ hasked => ⟨hasked, by simp⟩⟩
  rw [emitCall] at h
  split at h
  · rw [bind_eq_ok] at h
    obtain ⟨_, s₀, hserve, h⟩ := h
    have hpush := serve_allots hh hserve rfl hargs
    obtain ⟨s₁, out, hallots, hrest⟩ := hcall s₀ (Nat.lt_of_lt_of_le hslot hpush.count_le) h
    exact ⟨s₁, out, hpush.trans hallots, hrest⟩
  · exact hcall s hslot h

theorem number_allots (tag : Tag) (value : Int) : ExprAllots su (.number tag value) := by
  intro pt s s' slot h
  rw [selectExpr, bind_eq_ok] at h
  obtain ⟨_, s₀, hclaim, h⟩ := h
  have hslot := (claimSlot_eq_ok.mp hclaim).2
  split at h
  · rw [remark_bind_apply] at h
    cases h
    exact (allots_remarked ..).defined hslot pt rfl (by simp)
  · cases h
    have hsame : Allots su [] s₀ s₀ := allots_same rfl rfl rfl
    exact hsame.defined hslot pt rfl (by simp)

theorem boolean_allots (tag : Tag) (value : Bool) : ExprAllots su (.boolean tag value) := by
  intro pt s s' slot h
  rw [selectExpr, bind_eq_ok] at h
  obtain ⟨_, s₀, hclaim, h⟩ := h
  rw [emit_bind_apply] at h
  cases h
  have hsame : Allots su [] s₀ s₀ := allots_same rfl rfl rfl
  exact hsame.defined (claimSlot_eq_ok.mp hclaim).2 pt rfl (by simp)

theorem ident_allots (tag : Tag) (name : String) : ExprAllots su (.ident tag name) := by
  intro pt s s' slot h
  rw [selectExpr, bind_eq_ok] at h
  obtain ⟨_, s₀, hclaim, h⟩ := h
  cases hfound : su.bindings.find? tag.label with
  | none =>
    rw [hfound] at h
    cases h
  | some decl =>
    simp only [hfound] at h
    rw [bind_eq_ok] at h
    obtain ⟨source, s₁, hlookup, h⟩ := h
    obtain ⟨hsource, rfl⟩ := lookup_eq_ok.mp hlookup
    rw [emit_bind_apply] at h
    cases h
    have hsame : Allots su [] s₁ s₁ := allots_same rfl rfl rfl
    exact hsame.defined (claimSlot_eq_ok.mp hclaim).2 pt rfl (by simp [slot?_lt_count hsource])

theorem string_allots (tag : Tag) (bytes : List UInt8) : ExprAllots su (.string tag bytes) := by
  intro pt s s' slot h
  rw [selectExpr, bind_eq_ok] at h
  obtain ⟨_, s₀, hclaim, h⟩ := h
  rw [bind_eq_ok] at h
  obtain ⟨literal, s₁, hliteral, h⟩ := h
  obtain ⟨hemit, hslots, -⟩ := emitted_literalFor pt hliteral
  have hserved : s₁.served = s₀.served := by
    rw [literalFor_apply] at hliteral
    cases hliteral
    rfl
  rw [emit_bind_apply] at h
  cases h
  have hsame : Allots su [] s₀ s₁ := hemit.allots hslots hserved
  exact hsame.defined (claimSlot_eq_ok.mp hclaim).2 pt rfl (by simp)

theorem binary_allots (tag : Tag) (op : Token) {left right : Node} (hleft : ExprAllots su left)
    (hright : ExprAllots su right) : ExprAllots su (.binary tag op left right) := by
  intro pt s s' slot h
  rw [selectExpr, bind_eq_ok] at h
  obtain ⟨_, s₀, hclaim, h⟩ := h
  rw [bind_eq_ok] at h
  obtain ⟨lhs, s₁, hl, h⟩ := h
  rw [bind_eq_ok] at h
  obtain ⟨rhs, s₂, hr, h⟩ := h
  rw [bind_eq_ok] at h
  obtain ⟨opcode, s₃, hop, h⟩ := h
  rw [emit_bind_apply] at h
  cases h
  obtain ⟨hlhs, hallots₁⟩ := hleft pt s₀ s₁ lhs hl
  obtain ⟨hrhs, hallots₂⟩ := hright pt s₁ s₂ rhs hr
  obtain ⟨hopcode, hemit, hslots, hserved⟩ := operatorOpcode_eq_ok hop pt
  have hallots₃ : Allots su [] s₂ s₃ := hemit.allots hslots hserved
  have hall := (hallots₁.trans hallots₂).trans hallots₃
  rw [List.append_nil] at hall
  have hlhs₂ := Nat.lt_of_lt_of_le hlhs hallots₂.count_le
  refine hall.defined (claimSlot_eq_ok.mp hclaim).2 pt (binary_instr slot hopcode lhs rhs).1 ?_
  rw [hslots]
  simp [hlhs₂, hrhs]

theorem call_allots (hh : PushingHooks su) (tag : Tag) (callee : String) {args : List Node}
    (hargs : ∀ n ∈ args, ExprAllots su n) : ExprAllots su (.call tag callee args) := by
  intro pt s s' slot h
  rw [selectExpr, bind_eq_ok] at h
  obtain ⟨_, s₀, hclaim, h⟩ := h
  obtain ⟨hfree, rfl, rfl⟩ := allocate_eq_ok.mp (claimSlot_eq_ok.mp hclaim).2
  rw [bind_eq_ok] at h
  obtain ⟨entry, s₁, hentry, h⟩ := h
  obtain ⟨rfl, -⟩ := calleeEntry_eq_ok.mp hentry
  rw [bind_eq_ok] at h
  obtain ⟨slots, s₂, hselect, h⟩ := h
  rw [bind_eq_ok] at h
  obtain ⟨_, s₃, hcall, h⟩ := h
  cases h
  obtain ⟨hlts, hallots⟩ := selectArgs_allots args hargs pt _ s₂ slots hselect
  obtain ⟨s₃, out, hpush, hputs, hslots, hdef, hnamed⟩ :=
    emitCall_allots hh hcall hlts hallots.lt_count
  have hall := hallots.trans hpush
  rw [List.append_nil] at hall
  refine ⟨?_, hall.own hfree hslots hputs hdef hnamed⟩
  rw [hslots]
  exact hall.lt_count

/-- **Expressions get the next slots**, each before its operands, and define them once. -/
theorem selectExpr_allots (hh : PushingHooks su) : ∀ n : Node, ExprAllots su n := by
  intro n
  induction n using Node.parts_induction with
  | _ n ih _ =>
  cases n with
  | number tag value => exact number_allots tag value
  | boolean tag value => exact boolean_allots tag value
  | ident tag name => exact ident_allots tag name
  | string tag bytes => exact string_allots tag bytes
  | binary tag op left right =>
    exact binary_allots tag op (ih left (by simp [Node.parts])) (ih right (by simp [Node.parts]))
  | call tag callee args => exact call_allots hh tag callee ih
  | absent =>
    intro pt s s' slot h
    simp [selectExpr, fail] at h
  | _ =>
    intro pt s s' slot h
    rw [selectExpr, bind_eq_ok] at h
    obtain ⟨_, _, -, h⟩ := h
    cases h

/-! ## Statements -/

/-- A variable gets its slot behind its initializer, and its copy defines it. -/
theorem selectVar_allots (hh : PushingHooks su) {tag : Tag} {name : String} {type : ValueType}
    {init : Node} {u : Unit} (h : selectVar su pt tag name init s = .ok u s') :
    Allots su (Node.var tag name type init).allotted s s' := by
  rw [Node.allotted]
  by_cases hinit : init = .absent
  · subst hinit
    cases h
    exact allots_same rfl rfl rfl
  · have hpresent : init.isAbsent = false := by
      cases init with
      | absent => exact absurd rfl hinit
      | _ => rfl
    rw [selectVar_of_ne hinit, bind_eq_ok] at h
    obtain ⟨source, s₁, hexpr, h⟩ := h
    rw [bind_eq_ok] at h
    obtain ⟨slot, s₂, hslot, h⟩ := h
    obtain ⟨hlt, hallots⟩ := selectExpr_allots hh init pt s s₁ source hexpr
    have hmov : ∀ q : Point,
        Allots su [tag.label] s₁ (s₂.emit q ⟨.mov, [.slot slot, .slot source]⟩) := by
      intro q
      have hsame : Allots su [] s₂ s₂ := allots_same rfl rfl rfl
      have hle : s₁.slots.count ≤ s₂.slots.count := by
        obtain ⟨-, -, rfl⟩ := allocate_eq_ok.mp hslot
        rw [count_withOwner]
        exact Nat.le_succ _
      refine (hsame.defined hslot q rfl ?_).2
      simp [Nat.lt_of_lt_of_le hlt hle]
    rw [hpresent]
    split at h
    · cases h
      exact hallots.trans (hmov .globals)
    · cases pt with
      | globals => cases h
      | block r =>
        cases h
        exact hallots.trans (hmov (.block r))

/-- A statement gets the next slots, for what is below it. -/
def StmtAllots (su : Setup) (n : Node) : Prop :=
  ScanFree n → ∀ (r q : BlockRef) (s s' : State), selectStmt su n r s = .ok q s' →
    Allots su n.allotted s s'

theorem selectStmts_allots : ∀ ns : List Node, (∀ n ∈ ns, StmtAllots su n) →
    (∀ n ∈ ns, ScanFree n) → ∀ (returned : Bool) (r q : BlockRef) (s s' : State),
      selectStmts su returned ns r s = .ok q s' → Allots su (Node.allottedAll ns) s s' := by
  intro ns
  induction ns with
  | nil =>
    intro _ _ returned r q s s' h
    rw [selectStmts] at h
    cases h
    exact allots_same rfl rfl rfl
  | cons n ns ih =>
    intro hns hscan returned r q s s' h
    rw [List.forall_mem_cons] at hns hscan
    obtain ⟨s₀, s₁, mid, again, hm, hslots, -, hserved, hn, hrest⟩ := selectStmts_cons_ok h
    have hsame : Allots su [] s s₀ := allots_same hm hslots hserved
    rw [Node.allottedAll]
    exact (hsame.trans (hns.1 hscan.1 r mid s₀ s₁ hn)).trans
      (ih hns.2 hscan.2 again mid q s₁ s' hrest)

theorem openBody_allots {tag : Tag} {r q : BlockRef} (h : openBody tag r s = .ok q s') :
    Allots su [] s s' := by
  rw [openBody] at h
  split at h
  · exact openBlock_allots h
  · cases h

theorem selectBody_allots {body : Node} {r first last : BlockRef}
    (hparts : ∀ n ∈ body.parts, StmtAllots su n) (hscan : ScanFree body)
    (h : selectBody su body r s = .ok (first, last) s') : Allots su body.allotted s s' := by
  cases body with
  | compound tag stmts =>
    rw [selectBody, bind_eq_ok] at h
    obtain ⟨entry, s₁, hopen, h⟩ := h
    rw [bind_eq_ok] at h
    obtain ⟨q, s₂, hstmts, h⟩ := h
    cases h
    rw [Node.allotted]
    exact (openBody_allots hopen).trans
      (selectStmts_allots stmts hparts (fun n hn => hscan.part hn) false _ _ s₁ s' hstmts)
  | absent => simp [selectBody, Node.tag?] at h
  | _ =>
    simp only [selectBody, Node.tag?] at h
    rw [bind_eq_ok] at h
    obtain ⟨_, _, -, h⟩ := h
    cases h

theorem selectExprStmt_allots (hh : PushingHooks su) {n : Node} {r : BlockRef} {u : Unit}
    (h : selectExprStmt su n r s = .ok u s') : Allots su n.allotted s s' := by
  have hend : ∀ s₀ : State, (do let _ ← selectExpr su (.block r) n : Selection Unit) s₀ = .ok u s' →
      Allots su n.allotted s₀ s' := by
    intro s₀ h
    rw [bind_eq_ok] at h
    obtain ⟨slot, s₁, hexpr, h⟩ := h
    cases h
    exact (selectExpr_allots hh n (.block r) s₀ s' slot hexpr).2
  rw [selectExprStmt] at h
  cases htag : n.tag? with
  | none => simp [htag] at h
  | some tag =>
    simp only [htag] at h
    split at h
    · cases h
    · split at h
      · rw [remark_bind_apply] at h
        exact (allots_remarked ..).trans (hend _ h)
      · exact hend s h

theorem ifThen_allots (hh : PushingHooks su) (tag : Tag) (cond : Node) {body : Node}
    (hparts : ∀ n ∈ body.parts, StmtAllots su n) : StmtAllots su (.ifThen tag cond body) := by
  intro hscan r q s s' h
  rw [selectStmt, bind_eq_ok] at h
  obtain ⟨slot, s₁, hcond, h⟩ := h
  rw [bind_eq_ok] at h
  obtain ⟨⟨first, last⟩, s₂, hbody, h⟩ := h
  rw [bind_eq_ok] at h
  obtain ⟨exit, s₃, hopen, h⟩ := h
  rw [bind_eq_ok] at h
  obtain ⟨_, s₄, hbranch, h⟩ := h
  rw [bind_eq_ok] at h
  obtain ⟨_, s₅, hjump, h⟩ := h
  cases h
  obtain ⟨hlt, hallots₁⟩ := selectExpr_allots hh cond (.block r) s s₁ slot hcond
  have hallots₂ := selectBody_allots hparts (hscan.part (by simp [Node.parts])) hbody
  have hallots₃ : Allots su [] s₂ s₃ := openBlock_allots hopen
  have hlt₃ := Nat.lt_of_lt_of_le hlt (hallots₂.trans hallots₃).count_le
  have hallots₄ : Allots su [] s₃ s₄ := emitBranch_allots hbranch hlt₃
  have hend := (hallots₃.trans hallots₄).trans (jump_allots hjump)
  have hall := (hallots₁.trans hallots₂).trans hend
  rw [Node.allotted]
  simpa using hall

theorem loop_allots (hh : PushingHooks su) (tag : Tag) (cond : Node) {body : Node}
    (hparts : ∀ n ∈ body.parts, StmtAllots su n) : StmtAllots su (.loop tag cond body) := by
  intro hscan r q s s' h
  rw [selectStmt, bind_eq_ok] at h
  obtain ⟨header, s₁, hheader, h⟩ := h
  rw [bind_eq_ok] at h
  obtain ⟨slot, s₂, hcond, h⟩ := h
  rw [bind_eq_ok] at h
  obtain ⟨⟨first, last⟩, s₃, hbody, h⟩ := h
  rw [bind_eq_ok] at h
  obtain ⟨_, s₄, hjump, h⟩ := h
  rw [bind_eq_ok] at h
  obtain ⟨exit, s₅, hopen, h⟩ := h
  rw [bind_eq_ok] at h
  obtain ⟨_, s₆, hbranch, h⟩ := h
  cases h
  obtain ⟨hlt, hallots₁⟩ := selectExpr_allots hh cond (.block header) s₁ s₂ slot hcond
  have hallots₂ := selectBody_allots hparts (hscan.part (by simp [Node.parts])) hbody
  have hallots₃ : Allots su [] s₃ s₅ := (jump_allots hjump).trans (openBlock_allots hopen)
  have hlt₅ := Nat.lt_of_lt_of_le hlt (hallots₂.trans hallots₃).count_le
  have hend := hallots₃.trans (emitBranch_allots hbranch hlt₅)
  have hall := (openBlock_allots hheader).trans ((hallots₁.trans hallots₂).trans hend)
  rw [Node.allotted]
  simpa using hall

theorem ret_allots (hh : PushingHooks su) (tag : Tag) (expr : Node) :
    StmtAllots su (.ret tag expr) := by
  intro _ r q s s' h
  have hret : ∀ s₀ : State, Allots su [] s₀ (s₀.emit (.block r) ⟨.ret, []⟩) := fun s₀ =>
    emit_allots s₀ _ rfl (by simp)
  rw [selectStmt] at h
  rw [Node.allotted]
  split at h
  · rw [bind_eq_ok] at h
    obtain ⟨value, s₁, hexpr, h⟩ := h
    rw [bind_eq_ok] at h
    obtain ⟨_, s₂, hserve, h⟩ := h
    cases h
    obtain ⟨hlt, hallots⟩ := selectExpr_allots hh expr (.block r) s s₁ value hexpr
    have hresult := serve_allots hh hserve rfl (List.forall_mem_singleton.mpr hlt)
    have hall := (hallots.trans hresult).trans (hret s₂)
    rw [List.append_nil, List.append_nil] at hall
    exact hall
  · next habsent =>
    cases h
    cases expr with
    | absent => exact hret s
    | _ => exact absurd rfl habsent

theorem print_allots (hh : PushingHooks su) (tag : Tag) (expr : Node) :
    StmtAllots su (.print tag expr) := by
  intro _ r q s s' h
  rw [selectStmt, bind_eq_ok] at h
  obtain ⟨value, s₁, hexpr, h⟩ := h
  rw [bind_eq_ok] at h
  obtain ⟨_, s₂, hserve, h⟩ := h
  cases h
  obtain ⟨hlt, hallots⟩ := selectExpr_allots hh expr (.block r) s s₁ value hexpr
  have hprint := serve_allots hh hserve rfl (List.forall_mem_singleton.mpr hlt)
  rw [Node.allotted]
  simpa using hallots.trans hprint

/-- **Statements get the next slots**, for their expressions and variables, and define them once. -/
theorem selectStmt_allots (hh : PushingHooks su) : ∀ n : Node, StmtAllots su n := by
  intro n
  induction n using Node.parts_induction with
  | _ n ih ih₂ =>
  cases n with
  | compound tag stmts =>
    intro hscan r q s s' h
    rw [selectStmt, bind_eq_ok] at h
    obtain ⟨entry, s₁, hopen, h⟩ := h
    rw [Node.allotted]
    exact (openBody_allots hopen).trans
      (selectStmts_allots stmts ih (fun n hn => hscan.part hn) false _ _ s₁ s' h)
  | ifThen tag cond body => exact ifThen_allots hh tag cond (ih₂ body (by simp [Node.parts]))
  | loop tag cond body => exact loop_allots hh tag cond (ih₂ body (by simp [Node.parts]))
  | ret tag expr => exact ret_allots hh tag expr
  | print tag expr => exact print_allots hh tag expr
  | scan tag target =>
    intro hscan
    exact absurd (Node.mem_nodes_self rfl) (hscan tag target)
  | var tag name type init =>
    intro _ r q s s' h
    rw [selectStmt, bind_eq_ok] at h
    obtain ⟨_, s₁, hvar, h⟩ := h
    cases h
    exact selectVar_allots hh hvar
  | _ =>
    intro _ r q s s' h
    simp only [selectStmt] at h
    rw [bind_eq_ok] at h
    obtain ⟨_, s₁, hexpr, h⟩ := h
    cases h
    exact selectExprStmt_allots hh hexpr

/-! ## Declarations -/

variable (su) in
theorem selectParams_allots (function : String) : ∀ (params : List Node) (s s' : State)
    (slots : List Slot), selectParams function params s = .ok slots s' →
      s'.module = s.module ∧ Allots su (params.filterMap Node.label?) s s' ∧ slots.Nodup ∧
        ∀ k ∈ slots, s.slots.count ≤ k ∧ k < s'.slots.count := by
  intro params
  induction params with
  | nil =>
    intro s s' slots h
    cases h
    exact ⟨rfl, allots_same rfl rfl rfl, List.nodup_nil, by simp⟩
  | cons p params ih =>
    intro s s' slots h
    rw [selectParams] at h
    cases htag : p.tag? with
    | none => simp [htag] at h
    | some tag =>
      simp only [htag] at h
      split at h
      · cases h
      · rw [bind_eq_ok] at h
        obtain ⟨slot, s₁, hslot, h⟩ := h
        rw [bind_eq_ok] at h
        obtain ⟨rest, s₂, hrest, h⟩ := h
        cases h
        obtain ⟨hfree, rfl, rfl⟩ := allocate_eq_ok.mp hslot
        obtain ⟨hm, hallots, hnodup, hrange⟩ := ih _ _ _ hrest
        have hnothing : Puts .globals [] s'.module s'.module := .inl fun _ => rfl
        have hlabel : p.label? = some tag.label := by rw [Node.label?, htag]; rfl
        refine ⟨hm, ?_, ?_, ?_⟩
        · rw [List.filterMap_cons_some hlabel]
          exact hallots.own hfree rfl hnothing (List.nil_sublist _)
            fun _ hasked => ⟨hasked, by simp⟩
        · refine List.nodup_cons.mpr ⟨fun hmem => ?_, hnodup⟩
          have hle := (hrange _ hmem).1
          rw [count_withOwner] at hle
          exact Nat.not_succ_le_self _ hle
        · refine List.forall_mem_cons.mpr ⟨⟨Nat.le_refl _, hallots.lt_count⟩, fun k hk => ?_⟩
          obtain ⟨hle, hlt⟩ := hrange k hk
          rw [count_withOwner] at hle
          exact ⟨Nat.le_of_succ_le hle, hlt⟩

/-- Parameters get their slots together, and what arrives defines them. -/
theorem paramsIn_allots (hh : PushingHooks su) {function : String} {params : List Node}
    {slots : List Slot} {pos : Source.Position} {u : Unit}
    (h : selectParams function params s = .ok slots s₁)
    (hserve : serve su pos pt (.paramsIn slots) s₁ = .ok u s') :
    Allots su (params.filterMap Node.label?) s s' := by
  obtain ⟨hm, hallots, hnodup, hrange⟩ := selectParams_allots su function params s s₁ slots h
  obtain ⟨out, hputs, hslots, hdef, hnamed⟩ := serve_puts hh hserve
  refine ⟨?_, ?_, ?_, ?_⟩
  · rw [hslots]
    exact hallots.owners
  · rw [hslots]
    exact hallots.nodup
  · -- The slots leave the stack in reverse, each of them once.
    rw [hslots, ← hm]
    refine hputs.defines ?_ fun k hk => ?_
    · rw [hdef]
      exact List.nodup_reverse.mpr hnodup
    · rw [hdef] at hk
      exact hrange k (List.mem_reverse.mp hk)
  · intro hnames hasked
    obtain ⟨hasked', hnamed'⟩ :=
      hnamed (fun k hk => (hrange k hk).2) hnames (hallots.named hnames hasked).1
    refine ⟨hasked', fun i hi => ?_⟩
    rw [hslots]
    rcases hputs.has hi with hi | hi
    · rw [hm] at hi
      exact .inl hi
    · exact .inr (hnamed' i hi)

theorem reserveFunction_allots {tag : Tag} {name : String} {result : ValueType} {g : Nat}
    (h : reserveFunction tag name result s = .ok g s') : Allots su [] s s' := by
  have hreserved := reserveFunction_eq_ok h
  refine allots_of_code hreserved.code hreserved.slots ?_
  rw [reserveFunction_apply] at h
  split at h
  · cases h
  · cases h
    rfl

theorem functionGraph_allots {tag : Tag} {name : String} {result : ValueType} {g : Nat}
    (h : functionGraph tag name result s = .ok g s') : Allots su [] s s' := by
  rcases functionGraph_cases h with ⟨rfl, -, -⟩ | hres
  · exact allots_same rfl rfl rfl
  · exact reserveFunction_allots hres

theorem selectFunction_allots (hh : PushingHooks su) {tag : Tag} {name : String}
    {params : List Node} {result : ValueType} {body : Node} {u : Unit} (hscan : ScanFree body)
    (h : selectFunction su tag name params result body s = .ok u s') :
    Allots su (Node.function tag name params result body).allotted s s' := by
  obtain ⟨g, s₁, s₂, ⟨first, last⟩, hgraph, hparams, hbody⟩ := selectFunction_eq_ok h
  have hfunction : Allots su [] s s₁ := functionGraph_allots hgraph
  have hrest : Allots su body.allotted s₂ s' :=
    selectBody_allots (fun n _ => selectStmt_allots hh n) hscan hbody
  rw [Node.allotted]
  rcases hparams with ⟨rfl, rfl⟩ | ⟨slots, s₃, hparams, hserve⟩
  · exact hfunction.trans hrest
  · exact hfunction.trans ((paramsIn_allots hh hparams hserve).trans hrest)

theorem selectDecl_allots (hh : PushingHooks su) {d : Node} {u : Unit} (hscan : ScanFree d)
    (h : selectDecl su d s = .ok u s') : Allots su d.allotted s s' := by
  cases selectDecl_eq_ok h with
  | @function tag name params result body hk =>
    simp only [selectDecl, Node.tag?, hk] at h
    have hbody : ScanFree body := hscan.part (by simp [Node.parts])
    exact selectFunction_allots hh hbody h
  | @var tag name type init hk =>
    simp only [selectDecl, Node.tag?, hk] at h
    exact selectVar_allots hh h

theorem reserveDecl_allots {d : Node} {u : Unit} (h : reserveDecl d s = .ok u s') :
    Allots su [] s s' := by
  rcases reserveDecl_cases h with rfl | ⟨_, _, _, _, _, _, -, hres⟩
  · exact allots_same rfl rfl rfl
  · exact reserveFunction_allots hres

theorem forM_allots {f : Node → Selection Unit} (L : Node → List Label) {u : Unit} :
    ∀ (ds : List Node) (s s' : State),
      (∀ d ∈ ds, ∀ s s', f d s = .ok u s' → Allots su (L d) s s') →
        ds.forM f s = .ok u s' → Allots su (ds.flatMap L) s s' := by
  intro ds s s' hds h
  refine forM_induction (I := fun done t => Allots su (done.flatMap L) s t)
    (fun done d rest hsplit t t' ht hd => ?_) (allots_same rfl rfl rfl) h
  rw [List.flatMap_append, List.flatMap_singleton]
  exact ht.trans (hds d (by rw [hsplit]; simp) t t' hd)

/-- **A program gets the slots of its allotment**, and defines each at most once. -/
theorem select_allots (hh : PushingHooks su) {root : Node} {fin : State} {u : Unit}
    (hscan : ScanFree root) (h : select su root = .ok u fin) :
    Allots su root.allotted {} fin := by
  obtain ⟨tag, decls, rfl⟩ := select_program h
  have hdecls : ∀ s, decls.forM (selectDecl su) s = .ok u fin →
      Allots su (decls.flatMap Node.allotted) s fin := fun s h =>
    forM_allots Node.allotted decls s fin
      (fun d hd _ _ h => selectDecl_allots hh (hscan.part hd) h) h
  rw [Node.allotted, Node.allottedAll_eq]
  rw [select_of_kind su (select_isDecl h).1, selectDecls] at h
  split at h
  · rw [bind_eq_ok] at h
    obtain ⟨_, s, hres, h⟩ := h
    have hreserve : Allots su (decls.flatMap fun _ => []) {} s :=
      forM_allots _ decls {} s (fun d _ _ _ h => reserveDecl_allots h) hres
    rw [List.flatMap_eq_nil_iff.mpr fun _ _ => rfl] at hreserve
    exact hreserve.trans (hdecls s h)
  · exact hdecls {} h

end Allots

/-! ## The slots of a program -/

theorem code_init (q : Point) : q.code ({} : State).module = [] := by
  cases q <;> rfl

theorem slot?_lt_of_sublist {slots : Slots} {L : List Label} (howners : slots.owners = L.map some)
    (hnodup : slots.owners.Nodup) {l k : Label} (h : List.Sublist [l, k] L) :
    ∃ i j, slots.slot? (some l) = some i ∧ slots.slot? (some k) = some j ∧ i < j := by
  obtain ⟨before, behind, rfl, hl, hk⟩ := List.cons_sublist_iff.mp h
  rw [List.singleton_sublist] at hk
  rw [howners, List.map_append] at hnodup
  have hapart : some k ∉ before.map some := fun hmem =>
    List.disjoint_of_nodup_append hnodup hmem (List.mem_map_of_mem hk)
  have hnone : (before.map some).findIdx? (· == some k) = none := by
    rw [List.findIdx?_eq_none_iff]
    intro owner howner
    exact beq_false_of_ne fun he => hapart (he ▸ howner)
  have hfound : ∀ {ls : List Label} {x : Label}, x ∈ ls →
      ∃ i, (ls.map some).findIdx? (· == some x) = some i := by
    intro ls x hx
    rw [← Option.isSome_iff_exists, List.findIdx?_isSome, List.any_eq_true]
    exact ⟨some x, List.mem_map_of_mem hx, beq_self_eq_true _⟩
  obtain ⟨i, hi⟩ := hfound hl
  obtain ⟨j, hj⟩ := hfound hk
  have hlt : i < (before.map some).length := (List.findIdx?_eq_some_iff_getElem.mp hi).1
  refine ⟨i, j + (before.map some).length, ?_, ?_, Nat.lt_of_lt_of_le hlt (Nat.le_add_left ..)⟩
  · rw [Slots.slot?, howners, List.map_append, List.findIdx?_append, hi]
    rfl
  · rw [Slots.slot?, howners, List.map_append, List.findIdx?_append, hnone, hj]
    rfl

variable {su : Setup} {root : Node} {fin : State} {u : Unit}

/-- **Slots are assigned once, and densely.**  No two instructions define one slot.  None names a
slot that was not handed out, if hooks keep to the slots that they were asked about.  Where kinds
and payloads agree, the slots are those of the expressions, the initialised variables and the
parameters; an expression has a smaller slot than all that is below it, and a variable a larger one
than all of its initializer. -/
theorem select_singleAssignment (hh : PushingHooks su) (hscan : ScanFree root)
    (h : select su root = .ok u fin) :
    (fin.module.instrs.filterMap Instr.def?).Nodup ∧
      (NamesAsked su → ∀ i ∈ fin.module.instrs, Named fin.slots.count i) ∧
      ((∀ n ∈ root.nodes, n.Agrees) →
        fin.slots.count = root.nodes.countP Node.isExpr +
          root.nodes.countP Node.isInitialised + root.nodes.countP Node.isParam ∧
        (∀ n ∈ root.nodes, n.isExpr = true → ∀ c ∈ n.parts, ∀ m ∈ c.nodes,
          ∃ i j, fin.slots.slot? n.label? = some i ∧ fin.slots.slot? m.label? = some j ∧ i < j) ∧
        ∀ tag name type init, .var tag name type init ∈ root.nodes → ∀ m ∈ init.nodes,
          ∃ i j, fin.slots.slot? m.label? = some i ∧ fin.slots.slot? (some tag.label) = some j ∧
            i < j) := by
  have hallots := select_allots hh hscan h
  have howners : fin.slots.owners = root.allotted.map some := hallots.owners
  have hnodup : fin.slots.owners.Nodup := hallots.nodup List.nodup_nil
  refine ⟨?_, ?_, fun ha => ?_⟩
  · obtain ⟨D, hD, honce, -⟩ := hallots.defines
    have hdefs : (fun q : Point => q.defs fin.module) = D := by
      funext q
      rw [hD, Point.defs, code_init]
      rfl
    exact Once.nodup_instrs (hdefs ▸ honce) (select_steps h).owned.nodup
  · intro hnames i hi
    rw [instrs_eq] at hi
    obtain ⟨q, -, hi⟩ := List.mem_flatMap.mp hi
    have hnamed := (hallots.named hnames fun _ hq => nomatch hq).2
    rcases hnamed i ⟨q, hi⟩ with ⟨q', hi⟩ | hi
    · rw [code_init] at hi
      cases hi
    · exact hi
  · have hadmitted : Node.Admitted .program root := (requires_selectProgram root).holds _ _ _ h
    refine ⟨?_, ?_, ?_⟩
    · rw [Slots.count, howners, List.length_map]
      exact Node.length_allotted root (hadmitted.orderly ha hscan)
    · intro n hn hexpr c hc m hm
      obtain ⟨l, hl⟩ := Node.exists_label? root hn
      obtain ⟨k, hk⟩ := Node.exists_label? c hm
      rw [hl, hk]
      exact slot?_lt_of_sublist howners hnodup
        (hadmitted.operand_behind ha hscan hn hexpr hc hm hl hk)
    · intro tag name type init hv m hm
      obtain ⟨k, hk⟩ := Node.exists_label? init hm
      rw [hk]
      exact slot?_lt_of_sublist howners hnodup (hadmitted.initializer_before ha hscan hv hm hk)

/-- A function of two parameters, and one that calls it. -/
def summingRoot : Node :=
  .program (.nowhere 0 .program)
    [.function (.nowhere 1 .functionDecl) "add"
      [.param (.nowhere 2 .paramDecl) "a" .int, .param (.nowhere 3 .paramDecl) "b" .int] .int
      (.compound (.nowhere 4 .compoundStmt)
        [.ret (.nowhere 5 .returnStmt)
          (.binary (.nowhere 6 .binaryExpr) .plus (.ident (.nowhere 7 .identExpr) "a")
            (.ident (.nowhere 8 .identExpr) "b"))]),
     .function (.nowhere 9 .functionDecl) "show" [] .void
      (.compound (.nowhere 10 .compoundStmt)
        [.var (.nowhere 11 .varDecl) "x" .int
          (.call (.nowhere 12 .callExpr) "add"
            [.number (.nowhere 13 .numberExpr) 1, .number (.nowhere 14 .numberExpr) 2]),
         .print (.nowhere 15 .printStmt) (.ident (.nowhere 16 .identExpr) "x")])]

theorem pushingHooks_stackSetup (t : Scope.Table) (b : Scope.Bindings) :
    PushingHooks (stackSetup t b) where
  convention := .inr rfl
  io request out hio hout := by
    obtain ⟨served, hout⟩ := hout
    cases request with
    | print value =>
      cases hout
      exact List.forall_mem_singleton.mpr (.inr rfl)
    | scan target =>
      cases hout
      exact List.forall_mem_nil _
    | _ => cases hio

theorem namesAsked_stackSetup (t : Scope.Table) (b : Scope.Bindings) :
    NamesAsked (stackSetup t b) := by
  intro served request out hio hout i hi k hk
  cases request with
  | print value =>
    cases hout
    rw [List.mem_singleton.mp hi] at hk
    cases List.mem_singleton.mp hk
    exact ⟨_, List.mem_cons_self, List.mem_singleton_self _⟩
  | scan target =>
    cases hout
    cases hi
  | _ => cases hio

theorem summingRoot_singleAssignment : ∃ t b fin,
    NamesAsked (stackSetup t b) ∧ select (stackSetup t b) summingRoot = .ok () fin ∧
      (fin.module.instrs.filterMap Instr.def?).Nodup ∧ fin.slots.count = 10 ∧
      (∀ i ∈ fin.module.instrs, ∀ k, .slot k ∈ i.args → k < 10) ∧
      (∃ i j, fin.slots.slot? (some 12) = some i ∧ fin.slots.slot? (some 14) = some j ∧ i < j) ∧
      ∃ i j, fin.slots.slot? (some 12) = some i ∧ fin.slots.slot? (some 11) = some j ∧ i < j := by
  have hlowers : lowers stackSetup summingRoot = true := by decide +kernel
  obtain ⟨t, b, fin, -, hsel⟩ := exists_of_lowers hlowers
  have hscan : ScanFree summingRoot := by
    intro tag target hm
    simp [summingRoot, Node.nodes, Node.walk, Node.walkAll] at hm
  have hagrees : ∀ n ∈ summingRoot.nodes, n.Agrees := by decide
  obtain ⟨hnodup, hnamed, hslots⟩ :=
    select_singleAssignment (pushingHooks_stackSetup t b) hscan hsel
  obtain ⟨hcount, hoperand, hinit⟩ := hslots hagrees
  have hten : fin.slots.count = 10 := hcount.trans (by decide)
  have hcall : Node.call (.nowhere 12 .callExpr) "add"
      [.number (.nowhere 13 .numberExpr) 1, .number (.nowhere 14 .numberExpr) 2] ∈
        summingRoot.nodes := by
    simp [summingRoot, Node.nodes, Node.walk, Node.walkAll]
  have hvar : Node.var (.nowhere 11 .varDecl) "x" .int
      (.call (.nowhere 12 .callExpr) "add"
        [.number (.nowhere 13 .numberExpr) 1, .number (.nowhere 14 .numberExpr) 2]) ∈
        summingRoot.nodes := by
    simp [summingRoot, Node.nodes, Node.walk, Node.walkAll]
  refine ⟨t, b, fin, namesAsked_stackSetup t b, hsel, hnodup, hten, fun i hi k hk => ?_, ?_, ?_⟩
  · exact hten ▸ hnamed (namesAsked_stackSetup t b) i hi k hk
  · exact hoperand _ hcall rfl (.number (.nowhere 14 .numberExpr) 2) (by simp [Node.parts]) _
      (Node.mem_nodes_self rfl)
  · exact hinit _ _ _ _ hvar _ (Node.mem_nodes_self rfl)

/-- A function that prints a number. -/
def oneRoot : Node :=
  .program (.nowhere 0 .program)
    [.function (.nowhere 1 .functionDecl) "f" [] .void
      (.compound (.nowhere 2 .compoundStmt)
        [.print (.nowhere 3 .printStmt) (.number (.nowhere 4 .numberExpr) 1)])]

/-- **A hook that makes up a slot** pushes one that was never handed out. -/
theorem madeUpSlot_pushed : ∃ t b fin,
    PushingHooks (printingSetup [⟨.push, [.slot 999]⟩] t b) ∧ ScanFree oneRoot ∧
      select (printingSetup [⟨.push, [.slot 999]⟩] t b) oneRoot = .ok () fin ∧
      ⟨.push, [.slot 999]⟩ ∈ fin.module.instrs ∧ fin.slots.count = 1 := by
  have hlowered : (lowered? (printingSetup [⟨.push, [.slot 999]⟩]) oneRoot).any (fun s =>
      decide (⟨.push, [.slot 999]⟩ ∈ s.module.instrs) && s.slots.count == 1) = true := by
    decide +kernel
  obtain ⟨fin, hfin, hcheck⟩ := (Option.any_eq_true _ _).mp hlowered
  obtain ⟨t, b, -, hsel⟩ := exists_of_lowered? hfin
  rw [Bool.and_eq_true, decide_eq_true_iff, beq_iff_eq] at hcheck
  have hscan : ScanFree oneRoot := by
    intro tag target hm
    simp [oneRoot, Node.nodes, Node.walk, Node.walkAll] at hm
  refine ⟨t, b, fin, ⟨.inr rfl, fun request out hio ho i hi => ?_⟩, hscan, hsel, hcheck⟩
  obtain ⟨served, ho⟩ := ho
  rw [Hooks.answer, if_pos hio] at ho
  cases ho
  rw [List.mem_singleton.mp hi]
  exact .inr rfl

end Isel.Select
