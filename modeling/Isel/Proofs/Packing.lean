import Mathlib.Data.List.Forall2
import Isel.Flow.Encode

/-!
# What words hold

A word that fields are packed into gives the same fields back (`Word.decode_of_encode`), so
all that can be lost is lost on the way from an instruction to its fields.

`Instr.Packs` says which fields an instruction has: there is one rule for each form, and one
for each kind of operand that an immediate field takes.  Three things are read off it:

* `Instr.Holds`: the fields show the operands.
* `Instr.Fits`: the operands are small enough.
* `Packs.encode`: fields that come from an instruction always make a word.
-/

namespace Isel.Machine

/-- Jumps and calls are the opcodes with an address. -/
theorem Opcode.isBranch_iff {op : Opcode} : op.isBranch = true ↔ op.form = .addr := by
  cases op with
  | unassigned byte => simp [isBranch, form, info?]
  | _ => decide

/-! ## Words -/

namespace Word

section Parts

variable (op : Opcode) (a b c : BitVec 8) (imm : BitVec 16)

theorem toNat_ofRegisters : (ofRegisters op a b c).toNat =
    ((op.toByte.toNat * 256 + a.toNat) * 256 + b.toNat) * 256 + c.toNat := by
  unfold ofRegisters
  rw [toNat_append_byte, toNat_append_byte, toNat_append_byte]

theorem toNat_ofImmediate : (ofImmediate op a imm).toNat =
    (op.toByte.toNat * 256 + a.toNat) * 65536 + imm.toNat := by
  unfold ofImmediate
  rw [BitVec.toNat_append, ← Nat.shiftLeft_add_eq_or_of_lt imm.isLt, Nat.shiftLeft_eq,
    toNat_append_byte]

theorem opcode_ofRegisters : (ofRegisters op a b c).opcode = .ofByte op.toByte := by
  have ha := a.isLt
  have hb := b.isLt
  have hc := c.isLt
  have hop := op.toByte.isLt
  unfold opcode
  congr 1
  apply BitVec.eq_of_toNat_eq
  rw [BitVec.extractLsb'_toNat, Nat.shiftRight_eq_div_pow, toNat_ofRegisters]
  omega

theorem a_ofRegisters : (ofRegisters op a b c).a = a := by
  have ha := a.isLt
  have hb := b.isLt
  have hc := c.isLt
  apply BitVec.eq_of_toNat_eq
  rw [Word.a, BitVec.extractLsb'_toNat, Nat.shiftRight_eq_div_pow, toNat_ofRegisters]
  omega

theorem b_ofRegisters : (ofRegisters op a b c).b = b := by
  have hb := b.isLt
  have hc := c.isLt
  apply BitVec.eq_of_toNat_eq
  rw [Word.b, BitVec.extractLsb'_toNat, Nat.shiftRight_eq_div_pow, toNat_ofRegisters]
  omega

theorem c_ofRegisters : (ofRegisters op a b c).c = c := by
  have hc := c.isLt
  apply BitVec.eq_of_toNat_eq
  rw [Word.c, BitVec.extractLsb'_toNat, Nat.shiftRight_eq_div_pow, toNat_ofRegisters]
  omega

theorem opcode_ofImmediate : (ofImmediate op a imm).opcode = .ofByte op.toByte := by
  have ha := a.isLt
  have himm := imm.isLt
  have hop := op.toByte.isLt
  unfold opcode
  congr 1
  apply BitVec.eq_of_toNat_eq
  rw [BitVec.extractLsb'_toNat, Nat.shiftRight_eq_div_pow, toNat_ofImmediate]
  omega

theorem a_ofImmediate : (ofImmediate op a imm).a = a := by
  have ha := a.isLt
  have himm := imm.isLt
  apply BitVec.eq_of_toNat_eq
  rw [Word.a, BitVec.extractLsb'_toNat, Nat.shiftRight_eq_div_pow, toNat_ofImmediate]
  omega

theorem imm_ofImmediate : (ofImmediate op a imm).imm = imm := by
  have himm := imm.isLt
  apply BitVec.eq_of_toNat_eq
  rw [Word.imm, BitVec.extractLsb'_toNat, Nat.shiftRight_eq_div_pow, toNat_ofImmediate]
  omega

end Parts

theorem ofByte_of_info? {op : Opcode} {info : Opcode.Info} (h : op.info? = some info) :
    Opcode.ofByte op.toByte = op := by
  apply Opcode.ofByte_toByte
  rw [Opcode.isAssigned, h]
  rfl

/-- **Nothing is lost in a word.** -/
theorem decode_of_encode {f : Fields} {w : Word} (h : f.encode = .ok w) : w.decode = .ok f := by
  obtain ⟨op, a, b, c, imm⟩ := f
  unfold Fields.encode at h
  cases hinfo : op.info? with
  | none => simp [hinfo] at h
  | some info =>
    have hop := ofByte_of_info? hinfo
    simp only [hinfo] at h
    unfold decode
    cases hform : info.form with
    | none =>
      simp only [hform] at h
      split at h
      · next hzero =>
        obtain ⟨rfl, rfl, rfl, rfl⟩ := hzero
        cases h
        simp only [opcode_ofRegisters, hop, hinfo, hform]
      · cases h
    | reg =>
      simp only [hform] at h
      split at h
      · cases h
      · next hrest =>
        split at h
        · cases h
        · next himm =>
          cases h
          have himm : imm = 0 := not_not.mp himm
          -- The registers that the opcode does not use are zero, so reading them or not is one.
          have hlate : ∀ k, info.operands ≤ k → ∀ x ∈ [a, b, c].drop k, x = 0 := by
            intro k hk x hx
            rw [Bool.not_eq_true, List.any_eq_false] at hrest
            have := hrest x ((List.drop_sublist_drop_left [a, b, c] hk).subset hx)
            simpa using this
          simp only [opcode_ofRegisters, a_ofRegisters, b_ofRegisters, c_ofRegisters, hop, hinfo,
            hform, himm]
          congr 2
          · split
            · rfl
            · exact (hlate 0 (by omega) a (by simp)).symm
          · split
            · rfl
            · exact (hlate 1 (by omega) b (by simp)).symm
          · split
            · rfl
            · exact (hlate 2 (by omega) c (by simp)).symm
    | regImm =>
      simp only [hform] at h
      split at h
      · next hzero =>
        obtain ⟨rfl, rfl⟩ := hzero
        cases h
        simp only [opcode_ofImmediate, a_ofImmediate, imm_ofImmediate, hop, hinfo, hform]
      · cases h
    | addr =>
      simp only [hform] at h
      split at h
      · next hzero =>
        obtain ⟨rfl, rfl, rfl⟩ := hzero
        cases h
        simp only [opcode_ofImmediate, imm_ofImmediate, hop, hinfo, hform]
      · cases h

end Word

end Isel.Machine

namespace Isel.Proofs

/-! ## Outcomes of a list -/

variable {ε α β : Type}

def error? : Except ε α → Option ε
  | .ok _ => none
  | .error e => some e

theorem error?_eq_some {x : Except ε α} {e : ε} : error? x = some e ↔ x = .error e := by
  cases x with
  | ok a => simp [error?]
  | error e' => simp [error?]

theorem error?_eq_none {x : Except ε α} : error? x = none ↔ ∃ a, x = .ok a := by
  cases x with
  | ok a => simp [error?]
  | error e' => simp [error?]

/-- A list of outcomes is good exactly if each of them is. -/
theorem mapM_eq_ok {f : α → Except ε β} : ∀ {l : List α} {bs : List β},
    l.mapM f = .ok bs ↔ List.Forall₂ (fun a b => f a = .ok b) l bs := by
  intro l
  induction l with
  | nil =>
    intro bs
    rw [List.mapM_nil, List.forall₂_nil_left_iff]
    show Except.ok [] = Except.ok bs ↔ bs = []
    rw [Except.ok.injEq]
    exact eq_comm
  | cons a l ih =>
    intro bs
    rw [List.mapM_cons, List.forall₂_cons_left_iff]
    cases ha : f a with
    | error e =>
      constructor
      · intro h
        cases h
      · rintro ⟨b, bs', hb, -, -⟩
        cases hb
    | ok b =>
      cases hl : l.mapM f with
      | error e =>
        constructor
        · intro h
          cases h
        · rintro ⟨b', bs', -, hbs, -⟩
          rw [← ih, hl] at hbs
          cases hbs
      | ok bs' =>
        constructor
        · intro h
          cases h
          exact ⟨b, bs', rfl, ih.mp hl, rfl⟩
        · rintro ⟨b', bs'', hb, hbs, rfl⟩
          rw [← ih, hl] at hbs
          cases hb
          cases hbs
          rfl

/-- Otherwise its error is the first one. -/
theorem error?_mapM (f : α → Except ε β) (l : List α) :
    error? (l.mapM f) = l.findSome? fun a => error? (f a) := by
  induction l with
  | nil => rfl
  | cons a l ih =>
    rw [List.mapM_cons, List.findSome?_cons]
    cases ha : f a with
    | error e => rfl
    | ok b =>
      show _ = l.findSome? fun a => error? (f a)
      rw [← ih]
      cases hl : l.mapM f with
      | error e => rfl
      | ok bs => rfl

end Isel.Proofs

namespace Isel.Flow

open Isel.Machine Isel.Proofs

/-- The number that an immediate field holds for an operand. -/
def Operand.constant? : Operand → Option Int
  | .imm v => some v
  | .literal k => some k
  | _ => none

/-- Places of blocks as addresses, as far as they fit 16 bits. -/
def addresses (place : BlockRef → Option Nat) : Resolver := fun r =>
  (place r).bind fun n => if n ≤ 0xFFFF then some (BitVec.ofNat 16 n) else none

theorem addresses_eq_some {place : BlockRef → Option Nat} {r : BlockRef} {a : BitVec 16} :
    addresses place r = some a ↔ place r = some a.toNat := by
  unfold addresses
  cases hr : place r with
  | none => simp
  | some n =>
    rw [Option.bind_some, Option.some.injEq]
    split
    · next hn =>
      rw [Option.some.injEq, BitVec.toNat_eq, BitVec.toNat_ofNat]
      omega
    · next hn =>
      have := a.isLt
      simp only [reduceCtorEq, false_iff]
      omega

namespace Instr

variable {resolve : Resolver} {i : Instr} {f : Fields}

/-! ## The fields of an instruction -/

theorem register_eq_ok {x : Operand} {r : BitVec 8} :
    i.register x = .ok r ↔ ∃ s, x = .slot s ∧ s ≤ 0xFF ∧ r = BitVec.ofNat 8 s := by
  cases x with
  | slot s =>
    rw [register]
    split
    · next hs =>
      constructor
      · intro h
        cases h
        exact ⟨s, rfl, hs, rfl⟩
      · rintro ⟨s', h, -, rfl⟩
        cases h
        rfl
    · next hs =>
      constructor
      · intro h
        cases h
      · rintro ⟨s', h, hs', -⟩
        cases h
        exact absurd hs' hs
  | _ => simp [register]

theorem registers_eq_ok : ∀ {args : List Operand} {regs : List (BitVec 8)},
    args.mapM i.register = .ok regs ↔
      ∃ slots : List Slot, args = slots.map .slot ∧ (∀ s ∈ slots, s ≤ 0xFF) ∧
        regs = slots.map (BitVec.ofNat 8) := by
  intro args
  induction args with
  | nil =>
    intro regs
    rw [mapM_eq_ok, List.forall₂_nil_left_iff]
    constructor
    · rintro rfl
      exact ⟨[], rfl, by simp, rfl⟩
    · rintro ⟨slots, h, -, rfl⟩
      rw [List.map_eq_nil_iff.mp h.symm, List.map_nil]
  | cons x args ih =>
    intro regs
    rw [mapM_eq_ok, List.forall₂_cons_left_iff]
    constructor
    · rintro ⟨r, regs', hr, hregs, rfl⟩
      obtain ⟨s, rfl, hs, rfl⟩ := register_eq_ok.mp hr
      obtain ⟨slots, rfl, hslots, rfl⟩ := ih.mp (mapM_eq_ok.mpr hregs)
      exact ⟨s :: slots, rfl, List.forall_mem_cons.mpr ⟨hs, hslots⟩, rfl⟩
    · rintro ⟨slots, hargs, hslots, rfl⟩
      cases slots with
      | nil => cases hargs
      | cons s slots =>
        cases hargs
        rw [List.forall_mem_cons] at hslots
        exact ⟨_, _, register_eq_ok.mpr ⟨s, rfl, hslots.1, rfl⟩,
          mapM_eq_ok.mp (ih.mpr ⟨slots, rfl, hslots.2, rfl⟩), rfl⟩

/-- The fields that an instruction packs into, by its form. -/
inductive Packs (resolve : Resolver) : Instr → Fields → Prop
  | none {op : Opcode} {info : Opcode.Info} : op.info? = some info → info.form = .none →
      Packs resolve ⟨op, []⟩ { op }
  | registers {op : Opcode} {info : Opcode.Info} {slots : List Slot} : op.info? = some info →
      info.form = .reg → slots.length = info.operands → (∀ s ∈ slots, s ≤ 0xFF) →
        Packs resolve ⟨op, slots.map .slot⟩
          { op
            a := BitVec.ofNat 8 (slots.getD 0 0)
            b := BitVec.ofNat 8 (slots.getD 1 0)
            c := BitVec.ofNat 8 (slots.getD 2 0) }
  | constant {op : Opcode} {info : Opcode.Info} {s : Slot} {v : Int} : op.info? = some info →
      info.form = .regImm → s ≤ 0xFF → fits16 v = true →
        Packs resolve ⟨op, [.slot s, .imm v]⟩
          { op, a := BitVec.ofNat 8 s, imm := BitVec.ofInt 16 v }
  | literal {op : Opcode} {info : Opcode.Info} {s : Slot} {k : Nat} : op.info? = some info →
      info.form = .regImm → s ≤ 0xFF → k ≤ 0xFFFF →
        Packs resolve ⟨op, [.slot s, .literal k]⟩
          { op, a := BitVec.ofNat 8 s, imm := BitVec.ofNat 16 k }
  | target {op : Opcode} {info : Opcode.Info} {t : BlockRef} {address : BitVec 16} :
      op.info? = some info → info.form = .addr → resolve t = some address →
        Packs resolve ⟨op, [.block (some t)]⟩ { op, imm := address }

theorem getD_map_ofNat (slots : List Slot) (k : Nat) :
    (slots.map (BitVec.ofNat 8)).getD k 0 = BitVec.ofNat 8 (slots.getD k 0) := by
  rw [List.getD_eq_getElem?_getD, List.getD_eq_getElem?_getD, List.getElem?_map]
  cases slots[k]? with
  | none => rfl
  | some s => rfl

theorem packs_of_fields (h : i.fields resolve = .ok f) : Packs resolve i f := by
  obtain ⟨op, args⟩ := i
  unfold fields at h
  cases hinfo : op.info? with
  | none => simp [hinfo] at h
  | some info =>
    simp only [hinfo] at h
    cases hform : info.form with
    | none =>
      simp only [hform] at h
      split at h
      · next hargs =>
        cases h
        rw [List.isEmpty_iff] at hargs
        subst hargs
        exact .none hinfo hform
      · cases h
    | reg =>
      simp only [hform] at h
      split at h
      · next hlen =>
        cases hregs : args.mapM (register ⟨op, args⟩) with
        | error e =>
          rw [hregs] at h
          cases h
        | ok regs =>
          rw [hregs] at h
          cases h
          obtain ⟨slots, rfl, hslots, rfl⟩ := registers_eq_ok.mp hregs
          rw [List.length_map] at hlen
          rw [getD_map_ofNat, getD_map_ofNat, getD_map_ofNat]
          exact .registers hinfo hform hlen hslots
      · cases h
    | regImm =>
      simp only [hform] at h
      split at h
      · next r v =>
        cases hr : register ⟨op, [r, v]⟩ r with
        | error e =>
          rw [hr] at h
          cases h
        | ok a =>
          rw [hr] at h
          obtain ⟨s, rfl, hs, rfl⟩ := register_eq_ok.mp hr
          cases v with
          | imm v =>
            by_cases hv : fits16 v = true
            · simp only [immediate, hv, if_true] at h
              cases h
              exact .constant hinfo hform hs hv
            · simp only [immediate, hv] at h
              cases h
          | literal k =>
            by_cases hk : k ≤ 0xFFFF
            · simp only [immediate, hk, if_true] at h
              cases h
              exact .literal hinfo hform hs hk
            · simp only [immediate, hk, if_false] at h
              cases h
          | _ => cases h
      · cases h
    | addr =>
      simp only [hform] at h
      split at h
      · next t =>
        split at h
        · next address ha =>
          cases h
          exact .target hinfo hform ha
        · cases h
      · cases h

/-- **Fields that come from an instruction make a word**: an instruction fills only the places
that its form has. -/
theorem Packs.encode (h : Packs resolve i f) : ∃ w, f.encode = .ok w := by
  cases h with
  | none hinfo hform =>
    unfold Fields.encode
    simp [hinfo, hform]
  | registers hinfo hform hlen hslots =>
    next op info slots =>
    unfold Fields.encode
    simp only [hinfo, hform, ← hlen]
    rcases slots with _ | ⟨x, _ | ⟨y, _ | ⟨z, slots⟩⟩⟩
    all_goals simp
  | constant hinfo hform =>
    unfold Fields.encode
    simp [hinfo, hform]
  | literal hinfo hform =>
    unfold Fields.encode
    simp [hinfo, hform]
  | target hinfo hform =>
    unfold Fields.encode
    simp [hinfo, hform]

theorem encode_eq_ok {w : Word} (h : i.encode resolve = .ok w) :
    ∃ f, Packs resolve i f ∧ f.encode = .ok w := by
  unfold encode at h
  cases hfields : i.fields resolve with
  | error e =>
    rw [hfields] at h
    cases h
  | ok f =>
    rw [hfields] at h
    refine ⟨f, packs_of_fields hfields, ?_⟩
    obtain ⟨w', hw⟩ := (packs_of_fields hfields).encode
    simp only [bind, Except.bind, hw] at h
    cases h
    exact hw

theorem encode_eq_error {e : EncodeError} :
    i.encode resolve = .error e ↔ i.fields resolve = .error e := by
  unfold encode
  cases hfields : i.fields resolve with
  | error e' => simp only [bind, Except.bind, Except.error.injEq]
  | ok f =>
    obtain ⟨w, hw⟩ := (packs_of_fields hfields).encode
    simp only [bind, Except.bind, hw]
    constructor <;> intro h <;> cases h

/-! ## What the fields show -/

/-- The fields show the instruction: its opcode, its slots in the registers in order, and in the
immediate field its constant or literal, cut to 16 bits, or the place of its block. -/
structure Holds (place : BlockRef → Option Nat) (i : Instr) (f : Fields) : Prop where
  op : f.op = i.op
  registers : [f.a.toNat, f.b.toNat, f.c.toNat] =
    i.args.filterMap Operand.slot? ++
      List.replicate (3 - (i.args.filterMap Operand.slot?).length) 0
  constant : ∀ v ∈ i.args.filterMap Operand.constant?, (f.imm.toNat : Int) = v % 0x10000
  target : ∀ t, i.target? = some t → place t = some f.imm.toNat
  blank : i.args.filterMap Operand.constant? = [] → i.target? = none → f.imm = 0

theorem slots_map_slot (slots : List Slot) :
    (slots.map Operand.slot).filterMap Operand.slot? = slots := by
  rw [List.filterMap_map]
  exact List.filterMap_some

theorem constants_map_slot (slots : List Slot) :
    (slots.map Operand.slot).filterMap Operand.constant? = [] := by
  rw [List.filterMap_map, List.filterMap_eq_nil_iff]
  intro s _
  rfl

theorem target?_map_slot (op : Opcode) (slots : List Slot) :
    target? ⟨op, slots.map .slot⟩ = none := by
  have hnone : (slots.map Operand.slot).findSome? Operand.target? = none := by
    rw [List.findSome?_map, List.findSome?_eq_none_iff]
    intro s _
    rfl
  rw [target?, hnone]
  rfl

theorem operands_le {op : Opcode} {info : Opcode.Info} (h : op.info? = some info) :
    info.operands ≤ 3 := by
  cases op <;> cases h <;> decide

theorem toNat_ofNat_of_le {s : Nat} (h : s ≤ 0xFF) : (BitVec.ofNat 8 s).toNat = s := by
  rw [BitVec.toNat_ofNat]
  omega

theorem Packs.holds {place : BlockRef → Option Nat} (h : Packs (addresses place) i f) :
    Holds place i f := by
  cases h with
  | none hinfo hform =>
    refine ⟨rfl, rfl, by simp, ?_, fun _ _ => rfl⟩
    intro t ht
    cases ht
  | registers hinfo hform hlen hslots =>
    next op info slots =>
    refine ⟨rfl, ?_, ?_, ?_, fun _ _ => rfl⟩
    · have hle := operands_le hinfo
      rw [slots_map_slot]
      rcases slots with _ | ⟨x, _ | ⟨y, _ | ⟨z, _ | ⟨w, slots⟩⟩⟩⟩
      · rfl
      · have hx := toNat_ofNat_of_le (hslots x (by simp))
        show [(BitVec.ofNat 8 x).toNat, 0, 0] = [x, 0, 0]
        rw [hx]
      · have hx := toNat_ofNat_of_le (hslots x (by simp))
        have hy := toNat_ofNat_of_le (hslots y (by simp))
        show [(BitVec.ofNat 8 x).toNat, (BitVec.ofNat 8 y).toNat, 0] = [x, y, 0]
        rw [hx, hy]
      · have hx := toNat_ofNat_of_le (hslots x (by simp))
        have hy := toNat_ofNat_of_le (hslots y (by simp))
        have hz := toNat_ofNat_of_le (hslots z (by simp))
        show [(BitVec.ofNat 8 x).toNat, (BitVec.ofNat 8 y).toNat, (BitVec.ofNat 8 z).toNat] =
          [x, y, z]
        rw [hx, hy, hz]
      · simp only [List.length_cons] at hlen
        omega
    · rw [constants_map_slot]
      simp
    · rw [target?_map_slot]
      simp
  | constant hinfo hform hs hv =>
    next op info s v =>
    refine ⟨rfl, ?_, ?_, ?_, ?_⟩
    · show [(BitVec.ofNat 8 s).toNat, 0, 0] = [s, 0, 0]
      rw [toNat_ofNat_of_le hs]
    · intro v' hv'
      have hv' : v' ∈ [v] := hv'
      rw [List.mem_singleton.mp hv', BitVec.toNat_ofInt]
      omega
    · intro t ht
      cases ht
    · intro hnone
      cases hnone
  | literal hinfo hform hs hk =>
    next op info s k =>
    refine ⟨rfl, ?_, ?_, ?_, ?_⟩
    · show [(BitVec.ofNat 8 s).toNat, 0, 0] = [s, 0, 0]
      rw [toNat_ofNat_of_le hs]
    · intro v hv
      have hv : v ∈ [(k : Int)] := hv
      rw [List.mem_singleton.mp hv, BitVec.toNat_ofNat]
      omega
    · intro t ht
      cases ht
    · intro hnone
      cases hnone
  | target hinfo hform ha =>
    next op info t address =>
    refine ⟨rfl, rfl, ?_, ?_, ?_⟩
    · intro v hv
      cases hv
    · intro t' ht
      have ht : some t = some t' := ht
      cases ht
      exact addresses_eq_some.mp ha
    · intro _ hnone
      cases hnone

/-- **A word holds its instruction.** -/
theorem decode_of_encode {place : BlockRef → Option Nat} {w : Word}
    (h : i.encode (addresses place) = .ok w) : ∃ f, w.decode = .ok f ∧ Holds place i f := by
  obtain ⟨f, hf, hw⟩ := encode_eq_ok h
  exact ⟨f, Word.decode_of_encode hw, hf.holds⟩

/-! ## What fits -/

/-- The operands are small enough for their fields, and blocks have addresses. -/
structure Fits (resolve : Resolver) (i : Instr) : Prop where
  slots : ∀ s, .slot s ∈ i.args → s ≤ 0xFF
  constants : ∀ v, .imm v ∈ i.args → fits16 v = true
  literals : ∀ k, .literal k ∈ i.args → k ≤ 0xFFFF
  targets : ∀ t, .block (some t) ∈ i.args → ∃ a, resolve t = some a

theorem Packs.fits (h : Packs resolve i f) : Fits resolve i := by
  cases h with
  | none => constructor <;> simp
  | registers hinfo hform hlen hslots =>
    constructor
    · intro s hs
      obtain ⟨s', hs', he⟩ := List.mem_map.mp hs
      cases he
      exact hslots s hs'
    · simp
    · simp
    · simp
  | constant hinfo hform hs hv => constructor <;> simp [hs, hv]
  | literal hinfo hform hs hk => constructor <;> simp [hs, hk]
  | target hinfo hform ha => constructor <;> simp [ha]

/-- The operands are of the kinds that the form of the opcode takes. -/
inductive Shaped : Instr → Prop
  | none {op : Opcode} {info : Opcode.Info} : op.info? = some info → info.form = .none →
      Shaped ⟨op, []⟩
  | registers {op : Opcode} {info : Opcode.Info} (slots : List Slot) : op.info? = some info →
      info.form = .reg → slots.length = info.operands → Shaped ⟨op, slots.map .slot⟩
  | immediate {op : Opcode} {info : Opcode.Info} {s : Slot} {x : Operand} :
      op.info? = some info → info.form = .regImm → x.constant?.isSome = true →
        Shaped ⟨op, [.slot s, x]⟩
  | target {op : Opcode} {info : Opcode.Info} {t : BlockRef} : op.info? = some info →
      info.form = .addr → Shaped ⟨op, [.block (some t)]⟩

/-- The errors that are about the size of an operand. -/
def sizeErrors : List Category := [.slotRange, .immRange, .unresolvedTarget]

theorem register_slot (i : Instr) (s : Slot) :
    (∃ r, i.register (.slot s) = .ok r) ∨
      (0xFF < s ∧ i.register (.slot s) = .error (.slotRange i s)) := by
  unfold register
  by_cases hs : s ≤ 0xFF
  · exact .inl ⟨_, if_pos hs⟩
  · exact .inr ⟨Nat.lt_of_not_le hs, if_neg hs⟩

variable (resolve) in
theorem immediate_constant {x : Operand} (hx : x.constant?.isSome = true) (hmem : x ∈ i.args) :
    (∃ v, i.immediate x = .ok v) ∨
      (i.immediate x = .error (.immRange i) ∧ ¬Fits resolve i) := by
  cases x with
  | imm v =>
    by_cases hv : fits16 v = true
    · exact .inl ⟨_, if_pos hv⟩
    · exact .inr ⟨if_neg hv, fun h => hv (h.constants v hmem)⟩
  | literal k =>
    by_cases hk : k ≤ 0xFFFF
    · exact .inl ⟨_, if_pos hk⟩
    · exact .inr ⟨if_neg hk, fun h => hk (h.literals k hmem)⟩
  | slot s => cases hx
  | block t => cases hx

theorem Shaped.fields (h : Shaped i) (resolve : Resolver) :
    (∃ f, i.fields resolve = .ok f) ∨
      ∃ e, i.fields resolve = .error e ∧ e.category ∈ sizeErrors ∧ ¬Fits resolve i := by
  cases h with
  | none hinfo hform =>
    next op info =>
    refine .inl ⟨{ op := op }, ?_⟩
    simp [Instr.fields, hinfo, hform]
  | registers slots hinfo hform hlen =>
    next op info =>
    cases hregs : (slots.map Operand.slot).mapM (register ⟨op, slots.map .slot⟩) with
    | ok regs =>
      refine .inl ⟨{ op := op, a := regs.getD 0 0, b := regs.getD 1 0, c := regs.getD 2 0 }, ?_⟩
      simp only [Instr.fields, hinfo, hform, List.length_map, hlen, if_true, hregs]
      rfl
    | error e =>
      -- The first register that is refused stands for a slot.
      have hfirst := error?_eq_some.mpr hregs
      rw [error?_mapM] at hfirst
      obtain ⟨x, hx, herror⟩ := List.exists_of_findSome?_eq_some hfirst
      obtain ⟨s, -, rfl⟩ := List.mem_map.mp hx
      rw [error?_eq_some] at herror
      rcases register_slot ⟨op, slots.map .slot⟩ s with ⟨r, hs⟩ | ⟨hlt, hs⟩
      · rw [hs] at herror
        cases herror
      · rw [hs] at herror
        cases herror
        refine .inr ⟨.slotRange ⟨op, slots.map .slot⟩ s, ?_,
          by simp [EncodeError.category, sizeErrors], ?_⟩
        · simp only [Instr.fields, hinfo, hform, List.length_map, hlen, if_true, hregs]
          rfl
        · exact fun hfits => Nat.not_le_of_lt hlt (hfits.slots s hx)
  | immediate hinfo hform hx =>
    next op info s x =>
    rcases register_slot ⟨op, [.slot s, x]⟩ s with ⟨r, hs⟩ | ⟨hlt, hs⟩
    · have hmem : x ∈ Instr.args ⟨op, [.slot s, x]⟩ := by simp
      rcases immediate_constant resolve hx hmem with ⟨v, hv⟩ | ⟨hv, hfits⟩
      · refine .inl ⟨{ op := op, a := r, imm := v }, ?_⟩
        simp only [Instr.fields, hinfo, hform, hs, hv]
        rfl
      · refine .inr ⟨.immRange ⟨op, [.slot s, x]⟩, ?_,
          by simp [EncodeError.category, sizeErrors], hfits⟩
        simp only [Instr.fields, hinfo, hform, hs, hv]
        rfl
    · refine .inr ⟨.slotRange ⟨op, [.slot s, x]⟩ s, ?_,
        by simp [EncodeError.category, sizeErrors], ?_⟩
      · simp only [Instr.fields, hinfo, hform, hs]
        rfl
      · exact fun hfits => Nat.not_le_of_lt hlt (hfits.slots s (by simp))
  | target hinfo hform =>
    next op info t =>
    cases ha : resolve t with
    | some a =>
      refine .inl ⟨{ op := op, imm := a }, ?_⟩
      simp [Instr.fields, hinfo, hform, ha]
    | none =>
      refine .inr ⟨.unresolved t, ?_, by simp [EncodeError.category, sizeErrors], ?_⟩
      · simp [Instr.fields, hinfo, hform, ha]
      · intro hfits
        obtain ⟨a, ha'⟩ := hfits.targets t (by simp)
        rw [ha] at ha'
        cases ha'

/-- **Operands of the right kinds have a word unless one of them is too large**, and then the
error is about a size. -/
theorem Shaped.encode_fails (h : Shaped i) (resolve : Resolver) :
    ((∃ e, i.encode resolve = .error e) ↔ ¬Fits resolve i) ∧
      ∀ e, i.encode resolve = .error e → e.category ∈ sizeErrors := by
  rcases h.fields resolve with ⟨f, hf⟩ | ⟨e, he, hcat, hfits⟩
  · have hnone : ∀ e, i.encode resolve ≠ .error e := by
      intro e he
      rw [encode_eq_error, hf] at he
      cases he
    refine ⟨⟨?_, ?_⟩, fun e he => absurd he (hnone e)⟩
    · rintro ⟨e, he⟩
      exact absurd he (hnone e)
    · exact fun hfits => absurd (packs_of_fields hf).fits hfits
  · refine ⟨⟨fun _ => hfits, fun _ => ⟨e, encode_eq_error.mpr he⟩⟩, ?_⟩
    intro e' he'
    rw [encode_eq_error, he] at he'
    cases he'
    exact hcat

end Instr

end Isel.Flow
