import Mathlib.Data.Finset.Card
import Mathlib.Data.List.Induction
import Isel.Proofs.EqualWords
import Isel.Proofs.Image

/-!
# Block numbers

A block is numbered by how many different blocks were met before it.  A block that is met again is
numbered again, and by then it counts itself: its new number is the number of the next block that
is new, or is past all numbers if there is none.  So the numbers of a list of blocks tell them apart
and stay below their count exactly if no block is listed twice (`Numbering.identifies_iff_nodup`).

The blocks of a module are listed function by function, and functions may have one and the same
graph (`Module.nodup_listed_iff`).
-/

namespace Isel.Flow

open Isel.Machine

namespace Numbering

variable {l before after : List BlockRef} {r x : BlockRef}

/-! ## Numbers of a list -/

/-- The numbers of the blocks of a list, met one after the other. -/
def ofList (l : List BlockRef) : Numbering := l.foldl add {}

theorem ofList_concat (l : List BlockRef) (x : BlockRef) :
    ofList (l ++ [x]) = (ofList l).add x := List.foldl_concat ..

theorem find?_ofList_isSome : ((ofList l).find? r).isSome = true ↔ r ∈ l := by
  induction l using List.reverseRecOn with
  | nil => simp [ofList, find?]
  | append_singleton l x ih =>
    rw [ofList_concat, find?_add, List.mem_append, List.mem_singleton, ← ih]
    split
    · next hr => simp [hr]
    · next hr => simp [hr]

theorem toFinset_concat (l : List BlockRef) (x : BlockRef) :
    (l ++ [x]).toFinset = insert x l.toFinset := by
  ext r
  simp

theorem card_concat_of_mem (h : x ∈ l) : (l ++ [x]).toFinset.card = l.toFinset.card := by
  rw [toFinset_concat, Finset.card_insert_of_mem (List.mem_toFinset.mpr h)]

theorem card_concat_of_notMem (h : x ∉ l) :
    (l ++ [x]).toFinset.card = l.toFinset.card + 1 := by
  rw [toFinset_concat, Finset.card_insert_of_notMem fun hx => h (List.mem_toFinset.mp hx)]

theorem count_ofList (l : List BlockRef) : (ofList l).count = l.toFinset.card := by
  induction l using List.reverseRecOn with
  | nil => rfl
  | append_singleton l x ih =>
    rw [ofList_concat, add, ih]
    by_cases hx : x ∈ l
    · rw [card_concat_of_mem hx]
      exact if_pos (find?_ofList_isSome.mpr hx)
    · rw [card_concat_of_notMem hx]
      exact if_neg fun h => hx (find?_ofList_isSome.mp h)

theorem find?_ofList_concat (l : List BlockRef) (x r : BlockRef) :
    (ofList (l ++ [x])).find? r = if r = x then some l.toFinset.card else (ofList l).find? r := by
  rw [ofList_concat, find?_add, count_ofList]

/-- **The number of a block** is the count of the different blocks in front of the last place where
it is met. -/
theorem find?_ofList (h : r ∉ after) :
    (ofList (before ++ r :: after)).find? r = some before.toFinset.card := by
  induction after using List.reverseRecOn with
  | nil => rw [find?_ofList_concat, if_pos rfl]
  | append_singleton after x ih =>
    rw [List.mem_append, List.mem_singleton, not_or] at h
    rw [← List.cons_append, ← List.append_assoc, find?_ofList_concat, if_neg h.2, ih h.1]

/-! ## Numbers that identify -/

/-- Different blocks have different numbers, and all numbers are below the count. -/
structure Identifies (n : Numbering) (count : Nat) : Prop where
  injective : ∀ {r q : BlockRef} {k : Nat}, n.find? r = some k → n.find? q = some k → r = q
  bounded : ∀ {r : BlockRef} {k : Nat}, n.find? r = some k → k < count

/-- One more block leaves the numbers good exactly if it is new. -/
theorem identifies_concat : Identifies (ofList (l ++ [x])) (l ++ [x]).toFinset.card ↔
    x ∉ l ∧ Identifies (ofList l) l.toFinset.card := by
  have hlast : (ofList (l ++ [x])).find? x = some l.toFinset.card := by
    rw [find?_ofList_concat, if_pos rfl]
  have hother : ∀ {r k}, x ∉ l → (ofList l).find? r = some k →
      r ≠ x ∧ (ofList (l ++ [x])).find? r = some k := by
    intro r k hx hr
    have hmem : r ∈ l := find?_ofList_isSome.mp (Option.isSome_of_mem hr)
    have hne : r ≠ x := fun h => hx (h ▸ hmem)
    exact ⟨hne, by rw [find?_ofList_concat, if_neg hne, hr]⟩
  constructor
  · intro h
    have hx : x ∉ l := by
      -- Met again, the block has the count as its number.
      intro hx
      have hlt := h.bounded hlast
      rw [card_concat_of_mem hx] at hlt
      exact Nat.lt_irrefl _ hlt
    refine ⟨hx, ?_, ?_⟩
    · intro r q k hr hq
      exact h.injective (hother hx hr).2 (hother hx hq).2
    · intro r k hr
      obtain ⟨hne, hr⟩ := hother hx hr
      have hlt := h.bounded hr
      rw [card_concat_of_notMem hx] at hlt
      have hk : k ≠ l.toFinset.card := fun hk => hne (h.injective hr (hk ▸ hlast))
      omega
  · rintro ⟨hx, h⟩
    have hcases : ∀ {r k}, (ofList (l ++ [x])).find? r = some k →
        (r = x ∧ k = l.toFinset.card) ∨ (ofList l).find? r = some k := by
      intro r k hr
      rw [find?_ofList_concat] at hr
      split at hr
      · next heq => exact .inl ⟨heq, (Option.some.inj hr).symm⟩
      · exact .inr hr
    constructor
    · intro r q k hr hq
      rcases hcases hr with ⟨rfl, rfl⟩ | hr'
      · rcases hcases hq with ⟨rfl, -⟩ | hq'
        · rfl
        · exact absurd (h.bounded hq') (Nat.lt_irrefl _)
      · rcases hcases hq with ⟨rfl, rfl⟩ | hq'
        · exact absurd (h.bounded hr') (Nat.lt_irrefl _)
        · exact h.injective hr' hq'
    · intro r k hr
      rw [card_concat_of_notMem hx]
      rcases hcases hr with ⟨-, rfl⟩ | hr
      · exact Nat.lt_succ_self _
      · exact Nat.lt_succ_of_lt (h.bounded hr)

/-- **Numbers identify blocks exactly if no block is listed twice.** -/
theorem identifies_iff_nodup : Identifies (ofList l) l.toFinset.card ↔ l.Nodup := by
  induction l using List.reverseRecOn with
  | nil =>
    refine ⟨fun _ => List.nodup_nil, fun _ => ⟨?_, ?_⟩⟩
    · intro r q k hr
      cases hr
    · intro r k hr
      cases hr
  | append_singleton l x ih =>
    rw [identifies_concat, ih, ← List.concat_eq_append, List.nodup_concat]

end Numbering

namespace Module

variable {m : Module}

/-! ## Numbers of a module -/

theorem resolver_injective {count : Nat} (h : m.numbering.Identifies count) {t u : BlockRef}
    {address : BitVec 16} (ht : m.resolver t = some address) (hu : m.resolver u = some address) :
    t = u := by
  have hresolver : m.resolver = addresses m.numbering.find? := rfl
  rw [hresolver, addresses_eq_some] at ht hu
  exact h.injective ht hu

/-- **Block numbers**, whatever graphs the functions have.  The number of a block is the count of
the different blocks in front of the last place where it is listed.  The numbers tell all blocks
apart and are below their count exactly if no graph with blocks belongs to two functions, and then
jumps and calls with different targets have different words. -/
theorem blockNumbers_identify_iff (m : Module) :
    (∀ (before : List BlockRef) (r : BlockRef) (after : List BlockRef),
      m.listed = before ++ r :: after → r ∉ after →
        m.numbering.find? r = some before.toFinset.card) ∧
    (m.numbering.Identifies m.listed.toFinset.card ↔ m.functions.Pairwise fun f f' =>
      f.graph = f'.graph → (m.graph f.graph).blocks = []) ∧
    ((m.functions.Pairwise fun f f' => f.graph = f'.graph → (m.graph f.graph).blocks = []) →
      ∀ (i j : Instr) (t u : BlockRef) (w v : Word),
        i.op.isBranch = true → j.op.isBranch = true → i.target? = some t → j.target? = some u →
        i.encode m.resolver = .ok w → j.encode m.resolver = .ok v → t ≠ u → w ≠ v) := by
  have hiff : m.numbering.Identifies m.listed.toFinset.card ↔ m.functions.Pairwise fun f f' =>
      f.graph = f'.graph → (m.graph f.graph).blocks = [] :=
    Numbering.identifies_iff_nodup.trans nodup_listed_iff
  refine ⟨?_, hiff, ?_⟩
  · intro before r after hlisted hr
    show (Numbering.ofList m.listed).find? r = _
    rw [hlisted]
    exact Numbering.find?_ofList hr
  · intro hgraphs i j t u w v hi _ ht hu hw hv hne heq
    obtain ⟨t', u', address, ht', hu', ha, hb⟩ := ((Instr.word_eq_iff hw hv).mp heq).targets hi
    obtain rfl : t = t' := Option.some.inj (ht.symm.trans ht')
    obtain rfl : u = u' := Option.some.inj (hu.symm.trans hu')
    exact hne (resolver_injective (hiff.mpr hgraphs) ha hb)

/-- A loop of two blocks, a function of one block, and two functions without blocks. -/
def hollowModule : Module where
  graphs := [{ blocks := [{ name := "Block0" }, { name := "Block1" }] },
    { blocks := [{ name := "Block2" }] }, {}]
  functions := [⟨"f", 0⟩, ⟨"g", 2⟩, ⟨"h", 1⟩, ⟨"k", 2⟩]

theorem hollowModule_identify :
    hollowModule.numbering.Identifies 3 ∧
    Instr.encode hollowModule.resolver ⟨.jump, [.block (some ⟨0, 1⟩)]⟩ = .ok 0x10000001 ∧
    Instr.encode hollowModule.resolver ⟨.jump, [.block (some ⟨1, 0⟩)]⟩ = .ok 0x10000002 ∧
    (0x10000001 : Word) ≠ 0x10000002 := by
  obtain ⟨-, hiff, hwords⟩ := blockNumbers_identify_iff hollowModule
  have hgraphs : hollowModule.functions.Pairwise fun f f' =>
      f.graph = f'.graph → (hollowModule.graph f.graph).blocks = [] := by decide
  have hfirst : Instr.encode hollowModule.resolver ⟨.jump, [.block (some ⟨0, 1⟩)]⟩ =
      .ok 0x10000001 := by decide
  have hsecond : Instr.encode hollowModule.resolver ⟨.jump, [.block (some ⟨1, 0⟩)]⟩ =
      .ok 0x10000002 := by decide
  exact ⟨hiff.mpr hgraphs, hfirst, hsecond,
    hwords hgraphs _ _ _ _ _ _ rfl rfl rfl rfl hfirst hsecond (by decide)⟩

/-- A graph of two blocks that jump to themselves. -/
def spinningModule : Module :=
  let m := (addGraph {} false).1
  let m := (m.addBlock 0 "" [⟨.jump, [.block (some ⟨0, 0⟩)]⟩]).1
  (m.addBlock 0 "" [⟨.jump, [.block (some ⟨0, 1⟩)]⟩]).1

/-- With the graph under two names both blocks have the number 2, which is their count, and the
jumps to them have one word. -/
theorem spinningModule_shared : ∃ m,
    (spinningModule.addFunction "f" 0).bind (fun m => m.addFunction "g" 0) = .ok m ∧
    m.numbering.find? ⟨0, 0⟩ = some 2 ∧ m.numbering.find? ⟨0, 1⟩ = some 2 ∧
    ¬m.numbering.Identifies m.listed.toFinset.card ∧
    Instr.encode m.resolver ⟨.jump, [.block (some ⟨0, 0⟩)]⟩ = .ok 0x10000002 ∧
    Instr.encode m.resolver ⟨.jump, [.block (some ⟨0, 1⟩)]⟩ = .ok 0x10000002 := by
  refine ⟨_, rfl, by decide, by decide, ?_, by decide, by decide⟩
  intro h
  have hsame : (⟨0, 0⟩ : BlockRef) = ⟨0, 1⟩ := h.injective (k := 2) (by decide) (by decide)
  cases hsame

end Module

end Isel.Flow
