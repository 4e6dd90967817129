import Mathlib.Order.Bounds.Defs
import Isel.Flow.Module

/-!
# The table of literals

A new entry of the table is put behind the others, either in any case or only for bytes that have
none.  `LiteralOp.registered` says what a list of such operations registers, without a word on
digests, and the table is made of just that (`Module.literals_after`).

Looking for bytes, only the slots kept for their digest are compared.  These are in step with the
table (`Module.Indexed`) from the empty module on, and every operation keeps them so.  Whatever the
digest is, the search is then as good as one through the whole table
(`Module.Indexed.literalSlot?_eq`): a collision costs time and nothing else.
-/

namespace Isel.Flow

/-! ## Operations -/

inductive LiteralOp where
  /-- A new entry in any case. -/
  | add (name : String) (bytes : List UInt8)
  /-- A new entry only if no other has the bytes. -/
  | intern (name : String) (bytes : List UInt8)
  deriving DecidableEq, Repr

namespace LiteralOp

def isIntern : LiteralOp → Bool
  | .add .. => false
  | .intern .. => true

def run (digest : Digest) (m : Module) : LiteralOp → Module × Nat
  | .add name bytes => m.addLiteral digest name bytes
  | .intern name bytes => m.internLiteral digest name bytes

/-- What is registered, one operation further. -/
def register (entries : List (String × List UInt8)) : LiteralOp → List (String × List UInt8)
  | .add name bytes => entries ++ [(name, bytes)]
  | .intern name bytes =>
    if ∃ e ∈ entries, e.2 = bytes then entries else entries ++ [(name, bytes)]

/-- The names and bytes that operations register, in order. -/
def registered (ops : List LiteralOp) : List (String × List UInt8) := ops.foldl register []

variable {entries : List (String × List UInt8)}

theorem prefix_register (entries : List (String × List UInt8)) (op : LiteralOp) :
    entries <+: register entries op := by
  cases op with
  | add name bytes => exact List.prefix_append ..
  | intern name bytes =>
    rw [register]
    split
    · exact List.prefix_rfl
    · exact List.prefix_append ..

theorem registered_prefix (ops more : List LiteralOp) :
    registered ops <+: registered (ops ++ more) := by
  rw [registered, registered, List.foldl_append]
  generalize ops.foldl register [] = entries
  induction more generalizing entries with
  | nil => exact List.prefix_rfl
  | cons op more ih => exact (prefix_register entries op).trans (ih _)

theorem nodup_register {op : LiteralOp} (hop : op.isIntern = true)
    (h : (entries.map Prod.snd).Nodup) : ((register entries op).map Prod.snd).Nodup := by
  cases op with
  | add name bytes => cases hop
  | intern name bytes =>
    rw [register]
    split
    · exact h
    · next hnew =>
      rw [List.map_append, List.nodup_append]
      refine ⟨h, List.pairwise_singleton .., ?_⟩
      intro a ha b hb hab
      obtain ⟨e, he, rfl⟩ := List.mem_map.mp ha
      exact hnew ⟨e, he, hab.trans (List.mem_singleton.mp hb)⟩

/-- Without additions by force the bytes are pairwise distinct. -/
theorem nodup_registered {ops : List LiteralOp} (hops : ∀ op ∈ ops, op.isIntern = true) :
    ((registered ops).map Prod.snd).Nodup := by
  have hrun : ∀ entries : List (String × List UInt8), (entries.map Prod.snd).Nodup →
      ((ops.foldl register entries).map Prod.snd).Nodup := by
    induction ops with
    | nil => exact fun _ h => h
    | cons op ops ih =>
      intro entries h
      rw [List.forall_mem_cons] at hops
      exact ih hops.2 _ (nodup_register hops.1 h)
  exact hrun [] List.nodup_nil

end LiteralOp

/-- What is registered as the entries of a table. -/
def tableOf (entries : List (String × List UInt8)) : List Literal :=
  entries.mapIdx fun slot e => ⟨slot, e.1, e.2⟩

section Tables

variable {entries : List (String × List UInt8)}

@[simp] theorem length_tableOf (entries : List (String × List UInt8)) :
    (tableOf entries).length = entries.length := List.length_mapIdx

theorem tableOf_concat (entries : List (String × List UInt8)) (e : String × List UInt8) :
    tableOf (entries ++ [e]) = tableOf entries ++ [⟨entries.length, e.1, e.2⟩] := by
  rw [tableOf, List.mapIdx_append, List.mapIdx_singleton, Nat.zero_add]
  rfl

theorem getElem?_tableOf (entries : List (String × List UInt8)) (k : Nat) :
    (tableOf entries)[k]? = entries[k]?.map fun e => ⟨k, e.1, e.2⟩ := List.getElem?_mapIdx

theorem map_bytes_tableOf (entries : List (String × List UInt8)) :
    (tableOf entries).map Literal.bytes = entries.map Prod.snd := by
  refine List.ext_getElem? fun k => ?_
  rw [List.getElem?_map, getElem?_tableOf, Option.map_map, List.getElem?_map]
  rfl

theorem tableOf_prefix {more : List (String × List UInt8)} (h : entries <+: more) :
    tableOf entries <+: tableOf more := by
  obtain ⟨rest, rfl⟩ := h
  rw [tableOf, tableOf, List.mapIdx_append]
  exact List.prefix_append ..

end Tables

namespace Module

variable {digest : Digest} {m m' : Module} {name : String} {bytes : List UInt8} {k : Nat}

theorem literal?_eq_some {l : Literal} :
    m.literal? k = some l ↔ ∃ h : k < m.literals.length, m.literals[k] = l :=
  List.getElem?_eq_some_iff

theorem literal?_addLiteral (digest : Digest) (m : Module) (name : String) (bytes : List UInt8)
    (k : Nat) : (m.addLiteral digest name bytes).1.literal? k =
      if k = m.literals.length then some ⟨k, name, bytes⟩ else m.literal? k := by
  show (m.literals ++ [⟨m.literals.length, name, bytes⟩])[k]? = _
  rw [List.getElem?_append, literal?]
  split
  · rw [if_neg (by omega)]
  · by_cases hk : k = m.literals.length
    · rw [if_pos hk, hk, Nat.sub_self]
      rfl
    · rw [if_neg hk, List.getElem?_eq_none (by simp; omega), List.getElem?_eq_none (by omega)]

/-! ## Slots by digest -/

theorem slotsOf_addLiteral (digest : Digest) (m : Module) (name : String) (bytes : List UInt8)
    (d : UInt64) : (m.addLiteral digest name bytes).1.slotsOf d =
      if d = digest bytes then m.slotsOf d ++ [m.literals.length] else m.slotsOf d := by
  by_cases hd : d = digest bytes
  · rw [if_pos hd, hd]
    show ((Assoc.put ..).lookup _).getD [] = _
    rw [Assoc.lookup_put_self, Option.getD_some]
  · rw [if_neg hd]
    show ((Assoc.put ..).lookup _).getD [] = _
    rw [Assoc.lookup_put_ne hd]
    rfl

/-- The entry of the slot has the digest. -/
def hasDigest (digest : Digest) (m : Module) (d : UInt64) (slot : Nat) : Bool :=
  (m.literal? slot).any fun l => digest l.bytes == d

/-- Every entry has the slot of its place, and what is kept for a digest are the slots of all
entries with that digest, in ascending order. -/
structure Indexed (digest : Digest) (m : Module) : Prop where
  slot : ∀ k l, m.literal? k = some l → l.slot = k
  slotsOf : ∀ d, m.slotsOf d = (List.range m.literals.length).filter (m.hasDigest digest d)

theorem indexed_empty (digest : Digest) : Indexed digest {} := ⟨nofun, fun _ => rfl⟩

/-- What leaves the table and the slots by digest leaves them in step. -/
theorem Indexed.congr (h : Indexed digest m) (hl : m'.literals = m.literals)
    (hi : m'.interned = m.interned) : Indexed digest m' := by
  have hlit : m'.literal? = m.literal? := by
    funext k
    rw [literal?, literal?, hl]
  refine ⟨hlit ▸ h.slot, fun d => ?_⟩
  have hdigest : m'.hasDigest digest d = m.hasDigest digest d := by
    funext k
    rw [hasDigest, hasDigest, hlit]
  rw [Module.slotsOf, hi, hl, hdigest]
  exact h.slotsOf d

theorem Indexed.addLiteral (h : Indexed digest m) (name : String) (bytes : List UInt8) :
    Indexed digest (m.addLiteral digest name bytes).1 where
  slot k l hl := by
    rw [literal?_addLiteral] at hl
    split at hl
    · cases hl
      rfl
    · exact h.slot k l hl
  slotsOf d := by
    have hlength : (m.addLiteral digest name bytes).1.literals.length = m.literals.length + 1 :=
      List.length_append
    have hbefore : (List.range m.literals.length).filter
        ((m.addLiteral digest name bytes).1.hasDigest digest d) = m.slotsOf d := by
      rw [h.slotsOf]
      refine List.filter_congr fun k hk => ?_
      rw [hasDigest, literal?_addLiteral, if_neg (Nat.ne_of_lt (List.mem_range.mp hk))]
      rfl
    have hlast : (m.addLiteral digest name bytes).1.hasDigest digest d m.literals.length =
        (digest bytes == d) := by
      rw [hasDigest, literal?_addLiteral, if_pos rfl]
      rfl
    rw [slotsOf_addLiteral, hlength, List.range_succ, List.filter_append, hbefore]
    by_cases hd : d = digest bytes
    · rw [if_pos hd, List.filter_cons_of_pos (by rw [hlast, hd, beq_self_eq_true]), List.filter_nil]
    · have hother : ¬(digest bytes == d) = true := fun heq => hd (eq_of_beq heq).symm
      rw [if_neg hd, List.filter_cons_of_neg (by rwa [hlast]), List.filter_nil, List.append_nil]

theorem Indexed.internLiteral (h : Indexed digest m) (name : String) (bytes : List UInt8) :
    Indexed digest (m.internLiteral digest name bytes).1 := by
  rw [Module.internLiteral]
  split
  · exact h
  · exact h.addLiteral name bytes

/-- The first place of a list with a property, looked for place by place. -/
theorem findIdx?_eq_find?_range {α : Type} (p : α → Bool) (l : List α) :
    l.findIdx? p = (List.range l.length).find? fun k => l[k]?.any p := by
  have hat : ∀ k (hk : k < l.length), l[k]?.any p = p l[k] := by
    intro k hk
    rw [List.getElem?_eq_getElem hk, Option.any_some]
  apply Option.ext
  intro k
  rw [List.findIdx?_eq_some_iff_getElem, List.find?_range_eq_some, List.mem_range]
  constructor
  · rintro ⟨hk, hp, hbefore⟩
    refine ⟨(hat k hk).trans hp, hk, ?_⟩
    intro j hj
    rw [hat j (by omega), Bool.not_eq_true']
    exact Bool.eq_false_iff.mpr (hbefore j hj)
  · rintro ⟨hp, hk, hbefore⟩
    refine ⟨hk, (hat k hk).symm.trans hp, ?_⟩
    intro j hj
    have hnot := hbefore j hj
    rw [hat j (by omega), Bool.not_eq_true'] at hnot
    exact Bool.eq_false_iff.mp hnot

/-- **The search by digest finds what a search through the whole table finds.** -/
theorem Indexed.literalSlot?_eq (h : Indexed digest m) (bytes : List UInt8) :
    m.literalSlot? digest bytes = m.literals.findIdx? fun l => l.bytes == bytes := by
  rw [literalSlot?, h.slotsOf, List.find?_filter, findIdx?_eq_find?_range]
  congr 1
  funext k
  rw [hasDigest, literal?]
  cases m.literals[k]? with
  | none => rfl
  | some l =>
    -- equal bytes have equal digests
    cases hbytes : l.bytes == bytes with
    | false => simp [hbytes]
    | true => simp [eq_of_beq hbytes]

/-! ## One operation -/

def slotsHolding (m : Module) (bytes : List UInt8) : Set Nat :=
  { k | ∃ l, m.literal? k = some l ∧ l.bytes = bytes }

/-- **Interning** gives the smallest slot with the bytes and leaves the module, or makes a new
entry if no slot has them. -/
theorem internLiteral_cases (h : Indexed digest m) (name : String) (bytes : List UInt8) :
    (∃ k, IsLeast (m.slotsHolding bytes) k ∧ m.internLiteral digest name bytes = (m, k)) ∨
      ((∀ l ∈ m.literals, l.bytes ≠ bytes) ∧
        m.internLiteral digest name bytes = m.addLiteral digest name bytes) := by
  rw [internLiteral]
  have hsearch := h.literalSlot?_eq bytes
  cases hfound : m.literalSlot? digest bytes with
  | some k =>
    rw [hfound, eq_comm, List.findIdx?_eq_some_iff_getElem] at hsearch
    obtain ⟨hlt, hmatch, hbefore⟩ := hsearch
    refine .inl ⟨k, ⟨⟨_, literal?_eq_some.mpr ⟨hlt, rfl⟩, eq_of_beq hmatch⟩, ?_⟩, rfl⟩
    rintro j ⟨l, hl, hbytes⟩
    obtain ⟨hj, rfl⟩ := literal?_eq_some.mp hl
    exact Nat.le_of_not_lt fun hjk => hbefore j hjk (beq_iff_eq.mpr hbytes)
  | none =>
    rw [hfound, eq_comm, List.findIdx?_eq_none_iff] at hsearch
    exact .inr ⟨fun l hl hbytes => by simpa [hbytes] using hsearch l hl, rfl⟩

theorem indexed_run (h : Indexed digest m) (op : LiteralOp) :
    Indexed digest (op.run digest m).1 := by
  cases op with
  | add name bytes => exact h.addLiteral name bytes
  | intern name bytes => exact h.internLiteral name bytes

/-- An operation does to the table what it does to what is registered. -/
theorem literals_run {entries : List (String × List UInt8)} (hm : Indexed digest m)
    (h : m.literals = tableOf entries) (op : LiteralOp) :
    (op.run digest m).1.literals = tableOf (op.register entries) := by
  have hadd : ∀ name bytes,
      (m.addLiteral digest name bytes).1.literals = tableOf (entries ++ [(name, bytes)]) := by
    intro name bytes
    rw [tableOf_concat, ← h, ← length_tableOf entries, ← h]
    rfl
  have hbytes : m.literals.map Literal.bytes = entries.map Prod.snd :=
    h ▸ map_bytes_tableOf entries
  cases op with
  | add name bytes => exact hadd name bytes
  | intern name bytes =>
    rw [LiteralOp.run, LiteralOp.register]
    rcases internLiteral_cases hm name bytes with ⟨k, ⟨⟨l, hl, rfl⟩, -⟩, hrun⟩ | ⟨hnone, hrun⟩
    · have hmem : l.bytes ∈ entries.map Prod.snd :=
        hbytes ▸ List.mem_map_of_mem (List.mem_of_getElem? hl)
      rw [hrun, if_pos (List.mem_map.mp hmem)]
      exact h
    · have hnew : ¬∃ e ∈ entries, e.2 = bytes := by
        intro hold
        rw [← List.mem_map, ← hbytes] at hold
        obtain ⟨l, hl, heq⟩ := List.mem_map.mp hold
        exact hnone l hl heq
      rw [hrun, if_neg hnew]
      exact hadd name bytes

/-! ## Operations one after the other -/

def after (digest : Digest) (ops : List LiteralOp) : Module :=
  ops.foldl (fun m op => (op.run digest m).1) {}

/-- **The table holds what is registered**, and the slots by digest are in step with it. -/
theorem indexed_after (digest : Digest) (ops : List LiteralOp) :
    Indexed digest (after digest ops) ∧
      (after digest ops).literals = tableOf (LiteralOp.registered ops) := by
  have hrun : ∀ (m : Module) (entries : List (String × List UInt8)), Indexed digest m →
      m.literals = tableOf entries →
      Indexed digest (ops.foldl (fun m op => (op.run digest m).1) m) ∧
        (ops.foldl (fun m op => (op.run digest m).1) m).literals =
          tableOf (ops.foldl LiteralOp.register entries) := by
    induction ops with
    | nil => exact fun _ _ hm h => ⟨hm, h⟩
    | cons op ops ih =>
      intro m entries hm h
      exact ih _ _ (indexed_run hm op) (literals_run hm h op)
  exact hrun {} [] (indexed_empty digest) rfl

theorem literals_after (digest : Digest) (ops : List LiteralOp) :
    (after digest ops).literals = tableOf (LiteralOp.registered ops) :=
  (indexed_after digest ops).2

/-- **The table of literals**, behind any operations and with any digest.  An addition gets the
next free slot.  Interning gives the smallest slot with the bytes and leaves the module, or makes a
new entry if no slot has them.  Entry `k` has the slot `k` and the name and the bytes that were
registered as number `k`, and keeps them whatever is done later.  If all was interned, no two
entries have the same bytes.  And what is kept for a digest are the slots of the entries with that
digest, in ascending order. -/
theorem literals_faithful (digest : Digest) (ops : List LiteralOp) :
    (∀ (name : String) (bytes : List UInt8), ∃ m,
      (after digest ops).addLiteral digest name bytes = (m, (after digest ops).literals.length) ∧
      m.literals = (after digest ops).literals ++
        [⟨(after digest ops).literals.length, name, bytes⟩]) ∧
    (∀ (name : String) (bytes : List UInt8),
      (∃ k, IsLeast ((after digest ops).slotsHolding bytes) k ∧
        (after digest ops).internLiteral digest name bytes = (after digest ops, k)) ∨
      ((∀ l ∈ (after digest ops).literals, l.bytes ≠ bytes) ∧
        (after digest ops).internLiteral digest name bytes =
          (after digest ops).addLiteral digest name bytes)) ∧
    (∀ k : Nat, (after digest ops).literal? k =
      (LiteralOp.registered ops)[k]?.map fun e => ⟨k, e.1, e.2⟩) ∧
    (∀ (more : List LiteralOp) (k : Nat) (l : Literal), (after digest ops).literal? k = some l →
      (after digest (ops ++ more)).literal? k = some l) ∧
    ((∀ op ∈ ops, op.isIntern = true) →
      ((after digest ops).literals.map Literal.bytes).Nodup) ∧
    Indexed digest (after digest ops) := by
  obtain ⟨hindexed, htable⟩ := indexed_after digest ops
  refine ⟨fun name bytes => ⟨_, rfl, rfl⟩, internLiteral_cases hindexed, ?_, ?_, ?_, hindexed⟩
  · intro k
    rw [literal?, htable, getElem?_tableOf]
  · intro more k l hl
    obtain ⟨rest, hrest⟩ := tableOf_prefix (LiteralOp.registered_prefix ops more)
    obtain ⟨hlt, -⟩ := literal?_eq_some.mp hl
    rw [literal?, literals_after, ← hrest, ← htable, List.getElem?_append_left hlt]
    exact hl
  · intro hops
    rw [htable, map_bytes_tableOf]
    exact LiteralOp.nodup_registered hops

/-- Additions and interned bytes in turn. -/
def mixedOps : List LiteralOp := [.add "a" [1], .add "b" [2], .add "c" [2], .intern "d" [2]]

/-- All bytes have the digest 0.  Bytes that are there twice are found at the first of their slots,
which keeps its name when more is done, and interned bytes are there once. -/
theorem collisions_faithful :
    (after (fun _ => 0) mixedOps).literal? 1 = some ⟨1, "b", [2]⟩ ∧
    (after (fun _ => 0) mixedOps).slotsOf 0 = [0, 1, 2] ∧
    (after (fun _ => 0) (mixedOps ++ [.intern "e" [3]])).literal? 1 = some ⟨1, "b", [2]⟩ ∧
    (∀ op ∈ [LiteralOp.intern "a" [1], .intern "b" [2], .intern "c" [1]], op.isIntern = true) ∧
    ((after (fun _ => 0) [.intern "a" [1], .intern "b" [2], .intern "c" [1]]).literals.map
      Literal.bytes).Nodup := by
  have hop : ∀ op ∈ [LiteralOp.intern "a" [1], .intern "b" [2], .intern "c" [1]],
      op.isIntern = true := by decide
  obtain ⟨-, -, -, hkept, -, -⟩ := literals_faithful (fun _ => 0) mixedOps
  obtain ⟨-, -, -, -, hdistinct, -⟩ := literals_faithful (fun _ => 0) _
  exact ⟨by decide, by decide, hkept _ 1 _ (by decide), hop, hdistinct hop⟩

end Module

end Isel.Flow
