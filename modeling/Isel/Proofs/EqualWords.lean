import Mathlib.Data.Int.ModEq
import Isel.Proofs.RoundTrip

/-!
# Instructions with the same word

Operands are looked at twice on the way to a word: `Instr.fields` asks whether they match the form
of the opcode, and `Fields.encode` whether the form has a place for every field.  What passes the
first always passes the second, so the second has no error of its own (`category_of_fields`,
`Packs.encode`).

`Instr.Coincide` says of two instructions what a word cannot tell: a constant and a literal slot go
into one field, which keeps them modulo 2^16, and of a block only the address is left.  Nothing
else is lost (`word_eq_iff`).
-/

namespace Isel.Flow

open Isel.Machine Isel.Proofs

theorem addresses_toNat (resolve : Resolver) :
    addresses (fun t => (resolve t).map BitVec.toNat) = resolve := by
  funext t
  apply Option.ext
  intro a
  rw [addresses_eq_some, Option.map_eq_some_iff]
  constructor
  · rintro ⟨b, hb, hnat⟩
    rw [hb, BitVec.eq_of_toNat_eq hnat]
  · intro ha
    exact ⟨a, ha, rfl⟩

namespace Instr

variable {resolve : Resolver} {i j : Instr} {f g : Fields}

/-! ## Errors -/

theorem category_of_register {x : Operand} {e : EncodeError} (h : i.register x = .error e) :
    e.category ≠ .operandRange := by
  cases x with
  | slot s =>
    rcases register_slot i s with ⟨r, hr⟩ | ⟨-, hr⟩
    · rw [hr] at h
      cases h
    · rw [hr] at h
      cases h
      simp [EncodeError.category]
  | imm v | literal k | block t =>
    cases h
    simp [EncodeError.category]

theorem category_of_immediate {x : Operand} {e : EncodeError} (h : i.immediate x = .error e) :
    e.category ≠ .operandRange := by
  cases x with
  | imm v | literal k =>
    rw [immediate] at h
    split at h
    · cases h
    · cases h
      simp [EncodeError.category]
  | slot s | block t =>
    cases h
    simp [EncodeError.category]

/-- An instruction without fields is never blamed for a value that a word has no place for. -/
theorem category_of_fields {e : EncodeError} (h : i.fields resolve = .error e) :
    e.category ≠ .operandRange := by
  unfold fields at h
  cases hinfo : i.op.info? with
  | none =>
    simp only [hinfo] at h
    cases h
    simp [EncodeError.category, WordError.category]
  | some info =>
    simp only [hinfo] at h
    cases hform : info.form with
    | none =>
      simp only [hform] at h
      split at h
      · cases h
      · cases h
        simp [EncodeError.category]
    | reg =>
      simp only [hform] at h
      split at h
      · cases hregs : i.args.mapM i.register with
        | ok regs =>
          rw [hregs] at h
          cases h
        | error e' =>
          rw [hregs] at h
          cases h
          -- The first operand that has no register says why.
          rw [← error?_eq_some, error?_mapM] at hregs
          obtain ⟨x, -, hx⟩ := List.exists_of_findSome?_eq_some hregs
          exact category_of_register (error?_eq_some.mp hx)
      · cases h
        simp [EncodeError.category]
    | regImm =>
      simp only [hform] at h
      split at h
      · next r v _ =>
        cases hr : i.register r with
        | error e' =>
          rw [hr] at h
          cases h
          exact category_of_register hr
        | ok a =>
          cases hv : i.immediate v with
          | error e' =>
            rw [hr, hv] at h
            cases h
            exact category_of_immediate hv
          | ok n =>
            rw [hr, hv] at h
            cases h
      · cases h
        simp [EncodeError.category]
    | addr =>
      simp only [hform] at h
      split at h
      · split at h
        · cases h
        · cases h
          simp [EncodeError.category]
      · cases h
        simp [EncodeError.category]

/-! ## The parts of the fields -/

namespace Packs

theorem op_eq (h : Packs resolve i f) : f.op = i.op := by cases h <;> rfl

theorem registers_eq (h : Packs resolve i f) : [f.a.toNat, f.b.toNat, f.c.toNat] =
    i.args.filterMap Operand.slot? ++
      List.replicate (3 - (i.args.filterMap Operand.slot?).length) 0 := by
  rw [← addresses_toNat resolve] at h
  exact h.holds.registers

theorem slot_at (h : Packs resolve i f) (k : Nat) :
    i.args[k]?.bind Operand.slot? = (i.args.filterMap Operand.slot?)[k]? := by
  cases h with
  | none => rfl
  | registers hinfo hform hlen hslots =>
    next op info slots =>
    show ((slots.map Operand.slot)[k]?).bind Operand.slot? = _
    rw [slots_map_slot, List.getElem?_map]
    cases slots[k]? with
    | none => rfl
    | some s => rfl
  | constant | literal =>
    obtain _ | _ | k := k
    · rfl
    · rfl
    · rfl
  | target =>
    obtain _ | k := k
    · rfl
    · rfl

theorem length_slots (h : Packs resolve i f) :
    (i.args.filterMap Operand.slot?).length = i.op.operands := by
  have hcount : ∀ {op : Opcode} {info : Opcode.Info}, op.info? = some info →
      (info.form = .none → op.operands = 0) ∧ (info.form = .regImm → op.operands = 1) ∧
        (info.form = .addr → op.operands = 0) := by
    intro op info hinfo
    cases op <;> cases hinfo <;> decide
  cases h with
  | none hinfo hform => exact ((hcount hinfo).1 hform).symm
  | registers hinfo hform hlen =>
    rw [slots_map_slot, hlen, Opcode.operands_of_info? hinfo]
  | constant hinfo hform | literal hinfo hform => exact ((hcount hinfo).2.1 hform).symm
  | target hinfo hform => exact ((hcount hinfo).2.2 hform).symm

theorem imm_eq_zero (h : Packs resolve i f) (hop : i.op.usesImmediate = false) : f.imm = 0 := by
  cases h with
  | none | registers => rfl
  | constant hinfo hform | literal hinfo hform | target hinfo hform =>
    simp [Opcode.usesImmediate, Opcode.form_of_info? hinfo, hform] at hop

theorem imm_of_constant (h : Packs resolve i f) (hop : i.op.form = .regImm) :
    ∃ v, i.args[1]?.bind Operand.constant? = some v ∧ (f.imm.toNat : Int) = v % 2 ^ 16 := by
  cases h with
  | constant =>
    next s v _ _ _ _ =>
    refine ⟨v, rfl, ?_⟩
    rw [BitVec.toNat_ofInt]
    omega
  | literal =>
    next s k _ _ _ _ =>
    refine ⟨k, rfl, ?_⟩
    rw [BitVec.toNat_ofNat]
    omega
  | none hinfo hform | registers hinfo hform | target hinfo hform =>
    rw [Opcode.form_of_info? hinfo, hform] at hop
    cases hop

theorem imm_of_target (h : Packs resolve i f) (hop : i.op.form = .addr) :
    ∃ t, i.target? = some t ∧ resolve t = some f.imm := by
  cases h with
  | target hinfo hform haddress => exact ⟨_, rfl, haddress⟩
  | none hinfo hform | registers hinfo hform | constant hinfo hform | literal hinfo hform =>
    rw [Opcode.form_of_info? hinfo, hform] at hop
    cases hop

end Packs

/-! ## What a word cannot tell -/

/-- The instructions have the same opcode and the same slots at every place, and behind the slots
constants or literal slots that agree modulo 2^16, or blocks with the same address. -/
structure Coincide (resolve : Resolver) (i j : Instr) : Prop where
  op : i.op = j.op
  slots : ∀ k : Nat, i.args[k]?.bind Operand.slot? = j.args[k]?.bind Operand.slot?
  constants : i.op.form = .regImm → ∃ u v, i.args[1]?.bind Operand.constant? = some u ∧
    j.args[1]?.bind Operand.constant? = some v ∧ u ≡ v [ZMOD 2 ^ 16]
  targets : i.op.isBranch = true → ∃ t u address, i.target? = some t ∧ j.target? = some u ∧
    resolve t = some address ∧ resolve u = some address

theorem Packs.coincide (hi : Packs resolve i f) (hj : Packs resolve j f) :
    Coincide resolve i j := by
  have hop : i.op = j.op := hi.op_eq.symm.trans hj.op_eq
  have hlength : (i.args.filterMap Operand.slot?).length =
      (j.args.filterMap Operand.slot?).length := by
    rw [hi.length_slots, hj.length_slots, hop]
  have hslots : i.args.filterMap Operand.slot? = j.args.filterMap Operand.slot? :=
    (List.append_inj (hi.registers_eq.symm.trans hj.registers_eq) hlength).1
  refine ⟨hop, ?_, ?_, ?_⟩
  · intro k
    rw [hi.slot_at, hj.slot_at, hslots]
  · intro hform
    obtain ⟨u, hu, himm⟩ := hi.imm_of_constant hform
    obtain ⟨v, hv, himm'⟩ := hj.imm_of_constant (hop ▸ hform)
    exact ⟨u, v, hu, hv, himm.symm.trans himm'⟩
  · intro hbranch
    obtain ⟨t, ht, ha⟩ := hi.imm_of_target (Opcode.isBranch_iff.mp hbranch)
    obtain ⟨u, hu, ha'⟩ := hj.imm_of_target (Opcode.isBranch_iff.mp (hop ▸ hbranch))
    exact ⟨t, u, f.imm, ht, hu, ha, ha'⟩

theorem Packs.imm_eq (hi : Packs resolve i f) (hj : Packs resolve j g) (h : Coincide resolve i j) :
    f.imm = g.imm := by
  cases hform : i.op.form with
  | none | reg =>
    have hplain : i.op.usesImmediate = false := by
      rw [Opcode.usesImmediate, hform]
      rfl
    rw [hi.imm_eq_zero hplain, hj.imm_eq_zero (h.op ▸ hplain)]
  | regImm =>
    obtain ⟨u, v, hu, hv, hmod⟩ := h.constants hform
    obtain ⟨u', hu', himm⟩ := hi.imm_of_constant hform
    obtain ⟨v', hv', himm'⟩ := hj.imm_of_constant (h.op ▸ hform)
    obtain rfl : u = u' := Option.some.inj (hu.symm.trans hu')
    obtain rfl : v = v' := Option.some.inj (hv.symm.trans hv')
    have hsame : (f.imm.toNat : Int) = g.imm.toNat := himm.trans (Eq.trans hmod himm'.symm)
    apply BitVec.eq_of_toNat_eq
    omega
  | addr =>
    obtain ⟨t, u, address, ht, hu, ha, hb⟩ := h.targets (Opcode.isBranch_iff.mpr hform)
    obtain ⟨t', ht', hf⟩ := hi.imm_of_target hform
    obtain ⟨u', hu', hg⟩ := hj.imm_of_target (h.op ▸ hform)
    obtain rfl : t = t' := Option.some.inj (ht.symm.trans ht')
    obtain rfl : u = u' := Option.some.inj (hu.symm.trans hu')
    have haddress : some f.imm = some g.imm := by rw [← hf, ← hg, ha, hb]
    exact Option.some.inj haddress

theorem Packs.eq_of_coincide (hi : Packs resolve i f) (hj : Packs resolve j g)
    (h : Coincide resolve i j) : f = g := by
  have hslots : i.args.filterMap Operand.slot? = j.args.filterMap Operand.slot? := by
    apply List.ext_getElem?
    intro k
    rw [← hi.slot_at, ← hj.slot_at, h.slots]
  have hregisters : [f.a.toNat, f.b.toNat, f.c.toNat] = [g.a.toNat, g.b.toNat, g.c.toNat] := by
    rw [hi.registers_eq, hj.registers_eq, hslots]
  have hop : f.op = g.op := by rw [hi.op_eq, hj.op_eq, h.op]
  have himm := hi.imm_eq hj h
  obtain ⟨opf, a, b, c, immf⟩ := f
  obtain ⟨opg, a', b', c', immg⟩ := g
  simp only [List.cons.injEq, and_true] at hregisters hop himm
  rw [hop, himm, BitVec.eq_of_toNat_eq hregisters.1, BitVec.eq_of_toNat_eq hregisters.2.1,
    BitVec.eq_of_toNat_eq hregisters.2.2]

/-- Equal words are words of instructions that coincide. -/
theorem word_eq_iff {w v : Word} (hi : i.encode resolve = .ok w) (hj : j.encode resolve = .ok v) :
    w = v ↔ Coincide resolve i j := by
  obtain ⟨f, hf, hw⟩ := encode_eq_ok hi
  obtain ⟨g, hg, hv⟩ := encode_eq_ok hj
  constructor
  · rintro rfl
    have hfields : Except.ok f = Except.ok g :=
      (Word.decode_of_encode hw).symm.trans (Word.decode_of_encode hv)
    obtain rfl : f = g := Except.ok.inj hfields
    exact hf.coincide hg
  · intro h
    obtain rfl := hf.eq_of_coincide hg h
    exact Except.ok.inj (hw.symm.trans hv)

theorem encode_of_fields (h : i.fields resolve = .ok f) :
    ∃ w, f.encode = .ok w ∧ i.encode resolve = .ok w ∧ w.decode = .ok f := by
  obtain ⟨w, hw⟩ := (packs_of_fields h).encode
  refine ⟨w, hw, ?_, Word.decode_of_encode hw⟩
  unfold encode
  simp only [h, bind, Except.bind, hw]
  rfl

theorem Packs.shaped (h : Packs resolve i f) : Shaped i := by
  cases h with
  | none hinfo hform => exact .none hinfo hform
  | registers hinfo hform hlen => exact .registers _ hinfo hform hlen
  | constant hinfo hform | literal hinfo hform => exact .immediate hinfo hform rfl
  | target hinfo hform => exact .target hinfo hform

theorem exists_encode_iff : (∃ w, i.encode resolve = .ok w) ↔ Shaped i ∧ Fits resolve i := by
  constructor
  · rintro ⟨w, hw⟩
    obtain ⟨f, hf, -⟩ := encode_eq_ok hw
    exact ⟨hf.shaped, hf.fits⟩
  · rintro ⟨hshaped, hfits⟩
    rcases hshaped.fields resolve with ⟨f, hf⟩ | ⟨e, -, -, hnot⟩
    · obtain ⟨w, -, hw, -⟩ := encode_of_fields hf
      exact ⟨w, hw⟩
    · exact absurd hfits hnot

/-- **A word loses of an instruction only what 16 bits lose.**  Whatever the opcode, the operands
and the addresses: there is a word exactly if the operands match the form of the opcode and are
small enough, and an error is never about a value that the word has no place for; an instruction
that has fields has a word, which gives the fields back; and two instructions have the same word
exactly if they coincide. -/
theorem encode_kernel :
    (∀ (resolve : Resolver) (i : Instr),
      (∃ w, i.encode resolve = .ok w) ↔ Shaped i ∧ Fits resolve i) ∧
    (∀ (resolve : Resolver) (i : Instr) (e : EncodeError),
      i.encode resolve = .error e → e.category ≠ .operandRange) ∧
    (∀ (resolve : Resolver) (i : Instr) (f : Fields), i.fields resolve = .ok f →
      ∃ w, f.encode = .ok w ∧ i.encode resolve = .ok w ∧ w.decode = .ok f) ∧
    ∀ (resolve : Resolver) (i j : Instr) (w v : Word), i.encode resolve = .ok w →
      j.encode resolve = .ok v → (w = v ↔ Coincide resolve i j) := by
  refine ⟨fun _ _ => exists_encode_iff, ?_, fun _ _ _ => encode_of_fields,
    fun _ _ _ _ _ => word_eq_iff⟩
  intro resolve i e h
  exact category_of_fields (encode_eq_error.mp h)

/-- Blocks are at their places in their graphs. -/
def placeResolver : Resolver := fun t => some (BitVec.ofNat 16 t.index)

/-- All ones are loaded as a negative number and as the last literal slot that fits.  The smallest
number that fits has the word of its unsigned form, and not that of the largest signed number.
Jumps to blocks with the same address coincide. -/
theorem loads_kernel :
    (∃ w, encode placeResolver ⟨.loadImm, [.slot 1, .imm (-1)]⟩ = .ok w ∧
      w.decode = .ok { op := .loadImm, a := 1, imm := 0xFFFF }) ∧
    Coincide placeResolver ⟨.loadImm, [.slot 1, .imm (-1)]⟩ ⟨.loadImm, [.slot 1, .literal 65535]⟩ ∧
    Coincide placeResolver ⟨.loadImm, [.slot 1, .imm (-32768)]⟩
      ⟨.loadImm, [.slot 1, .imm 32768]⟩ ∧
    ¬Coincide placeResolver ⟨.loadImm, [.slot 1, .imm (-32768)]⟩
      ⟨.loadImm, [.slot 1, .imm 32767]⟩ ∧
    Coincide placeResolver ⟨.jump, [.block (some ⟨0, 3⟩)]⟩ ⟨.jump, [.block (some ⟨1, 3⟩)]⟩ ∧
    EncodeError.category (.immRange ⟨.loadImm, [.slot 1, .imm 65536]⟩) ≠ .operandRange := by
  obtain ⟨-, herror, hfields, hkernel⟩ := encode_kernel
  refine ⟨?_, ?_, ?_, ?_, ?_, ?_⟩
  · obtain ⟨w, -, hw, hback⟩ := hfields placeResolver ⟨.loadImm, [.slot 1, .imm (-1)]⟩
      { op := .loadImm, a := 1, imm := 0xFFFF } rfl
    exact ⟨w, hw, hback⟩
  · exact (hkernel _ _ _ 0x2001FFFF 0x2001FFFF rfl rfl).mp rfl
  · exact (hkernel _ _ _ 0x20018000 0x20018000 rfl rfl).mp rfl
  · intro h
    have hwords := (hkernel _ _ _ 0x20018000 0x20017FFF rfl rfl).mpr h
    revert hwords
    decide
  · exact (hkernel _ _ _ 0x10000003 0x10000003 rfl rfl).mp rfl
  · exact herror placeResolver ⟨.loadImm, [.slot 1, .imm 65536]⟩ _ rfl

end Instr

end Isel.Flow
