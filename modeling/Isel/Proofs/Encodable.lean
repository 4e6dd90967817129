import Isel.Proofs.Agreement
import Isel.Proofs.Image
import Isel.Proofs.Operands

/-!
# What selection makes can be encoded

All that can keep a selected module from having an image is the size of an operand: a slot, a
number of the program, a literal slot, or the place of a block that is jumped to or called.
Slots, literals and places grow with the program, so each of the four can come up.
-/

namespace Isel.Select

open Isel.Flow Isel.Syntax Isel.Proofs
open Isel.Syntax.Node (numbers)

section Image

variable {m : Module} {i : Instr} {t : BlockRef}

/-- The image holds the instructions of the module, and no others. -/
theorem has_iff_mem_stream (hm : Owned m) : Has m i ↔ ∃ name, (name, i) ∈ m.stream := by
  have hcode : ∀ g, i ∈ (m.graph g).instrs ↔ ∃ k, i ∈ m.code ⟨g, k⟩ := by
    intro g
    rw [Graph.instrs, List.mem_flatMap]
    constructor
    · rintro ⟨b, hb, hi⟩
      obtain ⟨k, hk⟩ := List.mem_iff_getElem?.mp hb
      have hblock : m.block? ⟨g, k⟩ = some b := hk
      refine ⟨k, ?_⟩
      rw [Module.code, hblock]
      exact hi
    · rintro ⟨k, hi⟩
      cases hb : m.block? ⟨g, k⟩ with
      | none => simp [Module.code, hb] at hi
      | some b =>
        rw [Module.code, hb] at hi
        exact ⟨b, List.mem_of_getElem? hb, hi⟩
  simp only [Module.stream, Module.sections, List.mem_flatMap, List.mem_cons, List.mem_map]
  constructor
  · rintro ⟨pt, hi⟩
    cases pt with
    | globals => exact ⟨"globals", _, .inl rfl, i, hi, rfl⟩
    | block r =>
      have hlt : r.index < m.count r.graph := by
        by_contra hge
        have hnone : m.code r = [] := Module.code_of_count_le (Nat.le_of_not_lt hge)
        have hi : i ∈ m.code r := hi
        rw [hnone] at hi
        cases hi
      obtain ⟨f, hf, hg⟩ := hm.mem.mp (Module.lt_of_count_pos (Nat.zero_lt_of_lt hlt))
      refine ⟨f.name, _, .inr ⟨f, hf, rfl⟩, i, ?_, rfl⟩
      rw [hg, hcode]
      exact ⟨r.index, hi⟩
  · rintro ⟨name, part, rfl | ⟨f, -, rfl⟩, j, hj, heq⟩
    · cases heq
      exact ⟨.globals, hj⟩
    · cases heq
      obtain ⟨k, hk⟩ := (hcode f.graph).mp hj
      exact ⟨.block ⟨f.graph, k⟩, hk⟩

theorem exists_place (hm : Owned m) (ht : t.index < m.count t.graph) :
    ∃ k, m.place? t = some k := by
  obtain ⟨f, hf, hg⟩ := hm.mem.mp (Module.lt_of_count_pos (Nat.zero_lt_of_lt ht))
  have hmem : t ∈ m.listed := by
    rw [Module.listed, List.mem_flatMap]
    refine ⟨f, hf, ?_⟩
    rw [Module.mem_blockRefs, hg]
    exact ⟨rfl, ht⟩
  rw [Module.place?, ← Option.isSome_iff_exists]
  exact List.isSome_idxOf?.mpr hmem

theorem exists_of_image_eq_error (hm : Owned m) {e : ImageError} (h : m.image = .error e) :
    ∃ i, Has m i ∧ i.encode (addresses m.place?) = .error e.cause := by
  rw [← error?_eq_some, Module.error?_image, Module.resolver_eq hm.nodup] at h
  obtain ⟨⟨name, i⟩, hmem, hi⟩ := List.exists_of_findSome?_eq_some h
  obtain ⟨cause, hcause, rfl⟩ := Option.map_eq_some_iff.mp hi
  exact ⟨i, (has_iff_mem_stream hm).mpr ⟨name, hmem⟩, error?_eq_some.mp hcause⟩

theorem image_fails_iff (hm : Owned m) : (∃ e, m.image = .error e) ↔
    ∃ i, Has m i ∧ ∃ e, i.encode (addresses m.place?) = .error e := by
  constructor
  · rintro ⟨e, h⟩
    obtain ⟨i, hi, herror⟩ := exists_of_image_eq_error hm h
    exact ⟨i, hi, e.cause, herror⟩
  · rintro ⟨i, hi, e, herror⟩
    obtain ⟨name, hmem⟩ := (has_iff_mem_stream hm).mp hi
    cases himage : m.image with
    | error e' => exact ⟨e', rfl⟩
    | ok bytes =>
      -- Without an error of the image no instruction has one.
      have hnone := error?_eq_none.mpr ⟨bytes, himage⟩
      rw [Module.error?_image, Module.resolver_eq hm.nodup, List.findSome?_eq_none_iff] at hnone
      have hinstr := Option.map_eq_none_iff.mp (hnone (name, i) hmem)
      rw [error?_eq_some.mpr herror] at hinstr
      cases hinstr

theorem branch_of_shaped (h : i.Shaped) (ht : .block (some t) ∈ i.args) :
    i.op = .jump ∨ i.op = .call := by
  cases h with
  | none => cases ht
  | registers slots => simp at ht
  | immediate hinfo hform hx =>
    simp only [List.mem_cons, reduceCtorEq, List.not_mem_nil, or_false, false_or] at ht
    subst ht
    cases hx
  | @target op info t' hinfo hform =>
    have hbranch : op.isBranch = true := by
      rw [Machine.Opcode.isBranch_iff, Machine.Opcode.form, hinfo]
      exact hform
    simpa [Machine.Opcode.isBranch] using hbranch

/-- Where an operand is too large for its field. -/
theorem not_fits_iff {place : BlockRef → Option Nat} (h : i.Shaped)
    (hplace : ∀ t, .block (some t) ∈ i.args → ∃ k, place t = some k) :
    ¬i.Fits (addresses place) ↔
      (∃ s, .slot s ∈ i.args ∧ 255 < s) ∨ (∃ v, .imm v ∈ i.args ∧ fits16 v = false) ∨
      (∃ k, .literal k ∈ i.args ∧ 65535 < k) ∨
      ((i.op = .jump ∨ i.op = .call) ∧
        ∃ t k, .block (some t) ∈ i.args ∧ place t = some k ∧ 65535 < k) := by
  constructor
  · intro hfits
    by_contra hsmall
    simp only [not_or, not_exists, not_and, Nat.not_lt, Bool.not_eq_false] at hsmall
    obtain ⟨hslots, hconstants, hliterals, htargets⟩ := hsmall
    refine hfits ⟨hslots, hconstants, hliterals, fun t ht => ?_⟩
    obtain ⟨k, hk⟩ := hplace t ht
    have hle := htargets (branch_of_shaped h ht) t k ht hk
    refine ⟨BitVec.ofNat 16 k, addresses_eq_some.mpr ?_⟩
    rw [hk, BitVec.toNat_ofNat, Nat.mod_eq_of_lt (by omega)]
  · rintro (⟨s, hs, hlt⟩ | ⟨v, hv, hlarge⟩ | ⟨k, hk, hlt⟩ | ⟨-, t, k, ht, hk, hlt⟩) hfits
    · exact Nat.not_le_of_lt hlt (hfits.slots s hs)
    · rw [hfits.constants v hv] at hlarge
      cases hlarge
    · exact Nat.not_le_of_lt hlt (hfits.literals k hk)
    · obtain ⟨a, ha⟩ := hfits.targets t ht
      rw [addresses_eq_some, hk] at ha
      have hbound := a.isLt
      cases ha
      omega

theorem fits16_eq_false {v : Int} : fits16 v = false ↔ ¬(-32768 ≤ v ∧ v ≤ 65535) := by
  simp [fits16]

/-- **A selected module has an image unless something in it is too large**: a slot, a number of
the program, a literal slot or the place of a block that is jumped to or called.  Its error is
then about a size, and the numbers are those that are remarked on. -/
theorem image_of_selected {su : Setup} {root : Node} {u : Unit} {fin : State}
    (hh : SimpleHooks su) (hsel : select su root = .ok u fin) :
    ((∃ e, fin.module.image = .error e) ↔
      (∃ i s, Has fin.module i ∧ .slot s ∈ i.args ∧ 255 < s) ∨
      (∃ n ∈ numbers root, ¬(-32768 ≤ n.2 ∧ n.2 ≤ 65535)) ∨
      (∃ i k, Has fin.module i ∧ .literal k ∈ i.args ∧ 65535 < k) ∨
      ∃ i t k, Has fin.module i ∧ (i.op = .jump ∨ i.op = .call) ∧ .block (some t) ∈ i.args ∧
        fin.module.place? t = some k ∧ 65535 < k) ∧
    (∀ e, fin.module.image = .error e →
      e.cause.category ∈ [.slotRange, .immRange, .unresolvedTarget]) ∧
    fin.remarks.filter (fun r => r.warning = .immRange) =
      if su.config.warns .immRange then
        ((numbers root).filter fun n => ¬(-32768 ≤ n.2 ∧ n.2 ≤ 65535)).map rangeRemark
      else [] := by
  have howned := (select_steps hsel).owned
  obtain ⟨log, hlog⟩ := select_logged hh.emit hsel
  have hhas : ∀ i, Has fin.module i ↔ i ∈ log := by
    intro i
    rw [hlog.has, or_iff_right]
    rintro ⟨pt, hi⟩
    cases pt <;> cases hi
  have hplace : ∀ i ∈ log, ∀ t, .block (some t) ∈ i.args → ∃ k, fin.module.place? t = some k :=
    fun i hi t ht => exists_place howned (hlog.targets i hi t ht)
  refine ⟨?_, ?_, ?_⟩
  · rw [image_fails_iff howned]
    have hfails : ∀ i, Has fin.module i → ¬i.Fits (addresses fin.module.place?) →
        ∃ i, Has fin.module i ∧ ∃ e, i.encode (addresses fin.module.place?) = .error e :=
      fun i hi hfits =>
        ⟨i, hi, ((hlog.shaped i ((hhas i).mp hi)).encode_fails _).1.mpr hfits⟩
    have hlarge : ∀ i, Has fin.module i → (¬i.Fits (addresses fin.module.place?) ↔ _) :=
      fun i hi => not_fits_iff (hlog.shaped i ((hhas i).mp hi)) (hplace i ((hhas i).mp hi))
    constructor
    · rintro ⟨i, hi, herror⟩
      have hfits := ((hlog.shaped i ((hhas i).mp hi)).encode_fails _).1.mp herror
      rcases (hlarge i hi).mp hfits with
        ⟨s, hs, hlt⟩ | ⟨v, hv, hv16⟩ | ⟨k, hk, hlt⟩ | ⟨hop, t, k, ht, hk, hlt⟩
      · exact .inl ⟨i, s, hi, hs, hlt⟩
      · obtain ⟨tag, hn⟩ := (hlog.constants v hv16).mp ⟨i, (hhas i).mp hi, hv⟩
        exact .inr (.inl ⟨(tag, v), hn, fits16_eq_false.mp hv16⟩)
      · exact .inr (.inr (.inl ⟨i, k, hi, hk, hlt⟩))
      · exact .inr (.inr (.inr ⟨i, t, k, hi, hop, ht, hk, hlt⟩))
    · rintro (⟨i, s, hi, hs, hlt⟩ | ⟨n, hn, hv⟩ | ⟨i, k, hi, hk, hlt⟩ |
        ⟨i, t, k, hi, hop, ht, hk, hlt⟩)
      · exact hfails i hi ((hlarge i hi).mpr (.inl ⟨s, hs, hlt⟩))
      · have hv16 := fits16_eq_false.mpr hv
        obtain ⟨i, hi, hmem⟩ := (hlog.constants n.2 hv16).mpr ⟨n.1, hn⟩
        have hi := (hhas i).mpr hi
        exact hfails i hi ((hlarge i hi).mpr (.inr (.inl ⟨n.2, hmem, hv16⟩)))
      · exact hfails i hi ((hlarge i hi).mpr (.inr (.inr (.inl ⟨k, hk, hlt⟩))))
      · exact hfails i hi ((hlarge i hi).mpr (.inr (.inr (.inr ⟨hop, t, k, ht, hk, hlt⟩))))
  · intro e he
    obtain ⟨i, hi, herror⟩ := exists_of_image_eq_error howned he
    exact ((hlog.shaped i ((hhas i).mp hi)).encode_fails _).2 _ herror
  · have hremarks : fin.rangeRemarks = rangeRemarks su (numbers root) := hlog.remarks
    unfold State.rangeRemarks rangeRemarks at hremarks
    have hfilter : ((numbers root).filter fun n => !fits16 n.2) =
        (numbers root).filter fun n => ¬(-32768 ≤ n.2 ∧ n.2 ≤ 65535) := by
      apply List.filter_congr
      intro n _
      rw [Bool.eq_iff_iff, Bool.not_eq_true', fits16_eq_false, decide_eq_true_iff]
    rw [hremarks, hfilter]

theorem simpleHooks_stackSetup (t : Scope.Table) (b : Scope.Bindings) :
    SimpleHooks (stackSetup t b) := by
  refine ⟨.inr rfl, ?_⟩
  intro served request out _ h i hi
  cases h
  obtain ⟨slot, -, rfl⟩ := List.mem_map.mp hi
  exact .push slot

/-- A function that prints a number that fits and one that does not. -/
def printingDecls : List Node :=
  [.function (.nowhere 1 .functionDecl) "f" [] .void
    (.compound (.nowhere 2 .compoundStmt)
      [.print (.nowhere 3 .printStmt) (.number (.nowhere 4 .numberExpr) (-32768)),
       .print (.nowhere 5 .printStmt) (.number (.nowhere 6 .numberExpr) 65536)])]

theorem printingDecls_image : ∃ t b fin e,
    select (stackSetup t b) (.program (.nowhere 0 .program) printingDecls) = .ok () fin ∧
      fin.module.image = .error e ∧
      e.cause.category ∈ [.slotRange, .immRange, .unresolvedTarget] ∧
      fin.remarks.filter (fun r => r.warning = .immRange) =
        [rangeRemark (.nowhere 6 .numberExpr, 65536)] := by
  have hlowers : lowers stackSetup (.program (.nowhere 0 .program) printingDecls) = true := by
    decide +kernel
  obtain ⟨t, b, fin, -, hsel⟩ := exists_of_lowers hlowers
  obtain ⟨hfails, herror, hremarks⟩ := image_of_selected (simpleHooks_stackSetup t b) hsel
  obtain ⟨e, he⟩ := hfails.mpr (.inr (.inl ⟨(.nowhere 6 .numberExpr, 65536), by decide, by decide⟩))
  exact ⟨t, b, fin, e, hsel, he, herror e he, hremarks⟩

end Image

end Isel.Select
