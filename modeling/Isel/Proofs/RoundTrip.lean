import Isel.Machine.Stream
import Isel.Proofs.Packing

/-!
# Words and fields, there and back

The form of an opcode says which fields it has.  `Fields.Blank` says of fields that all others are
zero, and `Opcode.usedBits` are the bits of a word that belong to the opcode and to its fields.

* `encode_iff`: fields make a word exactly if the opcode is in the table and the fields are blank.
* `decode_error_iff`: a word has no fields exactly if its first byte is not in the table.
* `encode_of_decode`: a word that is read and packed again is left with its used bits.

With `decode_of_encode` this makes packing and reading inverse to each other between the blank
fields of the table and the words without stray bits (`word_roundTrip`).
-/

namespace Isel.Machine

/-! ## What a form uses -/

/-- The bits of the opcode and of the fields that its form uses. -/
def Opcode.usedBits (op : Opcode) : Word :=
  match op.form with
  | .none => 0xFF000000
  | .reg =>
    match op.operands with
    | 0 => 0xFF000000
    | 1 => 0xFFFF0000
    | 2 => 0xFFFFFF00
    | _ => 0xFFFFFFFF
  | .regImm => 0xFFFFFFFF
  | .addr => 0xFF00FFFF

/-- Fields that the form of the opcode does not use are zero. -/
def Fields.Blank (f : Fields) : Prop :=
  match f.op.form with
  | .none => f.a = 0 ∧ f.b = 0 ∧ f.c = 0 ∧ f.imm = 0
  | .reg => (∀ k < 3, f.op.operands ≤ k → f.reg k = 0) ∧ f.imm = 0
  | .regImm => f.b = 0 ∧ f.c = 0
  | .addr => f.a = 0 ∧ f.b = 0 ∧ f.c = 0

section Form

variable {op : Opcode} {info : Opcode.Info}

theorem Opcode.form_of_info? (h : op.info? = some info) : op.form = info.form := by
  rw [Opcode.form, h]
  rfl

theorem Opcode.operands_of_info? (h : op.info? = some info) : op.operands = info.operands := by
  rw [Opcode.operands, h]
  rfl

theorem Opcode.isAssigned_iff : op.isAssigned = true ↔ ∃ info, op.info? = some info :=
  Option.isSome_iff_exists

end Form

/-! ## Packing -/

theorem Fields.drop_regs_iff (f : Fields) (n : Nat) :
    (∀ x ∈ [f.a, f.b, f.c].drop n, x = 0) ↔ ∀ k < 3, n ≤ k → f.reg k = 0 := by
  have hregs : [f.a, f.b, f.c] = (List.range' 0 3).map f.reg := rfl
  rw [hregs, ← List.map_drop, List.drop_range']
  constructor
  · intro h k hk hn
    refine h _ (List.mem_map_of_mem ?_)
    rw [List.mem_range'_1]
    omega
  · intro h x hx
    obtain ⟨k, hk, rfl⟩ := List.mem_map.mp hx
    rw [List.mem_range'_1] at hk
    exact h k (by omega) (by omega)

/-- **Which fields make a word.** -/
theorem Fields.encode_iff (f : Fields) :
    (∃ w, f.encode = .ok w) ↔ f.op.isAssigned = true ∧ f.Blank := by
  rw [Opcode.isAssigned_iff]
  cases hinfo : f.op.info? with
  | none => simp [encode, hinfo]
  | some info =>
    rw [Blank, Opcode.form_of_info? hinfo, Opcode.operands_of_info? hinfo]
    cases hform : info.form with
    | none | regImm | addr =>
      simp only [encode, hinfo, hform]
      split <;> simp_all
    | reg =>
      rw [← drop_regs_iff]
      simp only [encode, hinfo, hform]
      constructor
      · rintro ⟨w, hw⟩
        split at hw
        · cases hw
        · next hregs =>
          split at hw
          · cases hw
          · next himm => exact ⟨⟨info, rfl⟩, by simpa using hregs, not_not.mp himm⟩
      · rintro ⟨-, hregs, himm⟩
        have hany : ¬([f.a, f.b, f.c].drop info.operands).any (· != 0) = true := by
          simpa using hregs
        exact ⟨_, (if_neg hany).trans (if_neg (not_not.mpr himm))⟩

/-! ## Reading -/

namespace Word

def firstByte (w : Word) : BitVec 8 := w.extractLsb' 24 8

theorem toByte_opcode (w : Word) : w.opcode.toByte = w.firstByte := Opcode.toByte_ofByte _

theorem opcode_isAssigned_iff (w : Word) :
    w.opcode.isAssigned = true ↔ ∃ op : Opcode, op.isAssigned = true ∧ op.toByte = w.firstByte := by
  constructor
  · intro h
    exact ⟨w.opcode, h, w.toByte_opcode⟩
  · rintro ⟨op, hop, hbyte⟩
    have hw : w.opcode = op := by
      show Opcode.ofByte w.firstByte = op
      rw [← hbyte, Opcode.ofByte_toByte hop]
    rwa [hw]

/-- **Which words have no fields.** -/
theorem decode_error_iff (w : Word) : (∃ e, w.decode = .error e) ↔
    ∀ op : Opcode, op.isAssigned = true → op.toByte ≠ w.firstByte := by
  have hnone : (∃ e, w.decode = .error e) ↔ ¬w.opcode.isAssigned = true := by
    rw [Opcode.isAssigned_iff, decode]
    cases hinfo : w.opcode.info? with
    | none => simp
    | some info => cases hform : info.form <;> simp [hform]
  rw [hnone, opcode_isAssigned_iff]
  simp only [not_exists, not_and, ne_eq]

/-! ## A word by its bytes -/

theorem ofRegisters_parts (w : Word) : ofRegisters w.opcode w.a w.b w.c = w := by
  rw [ofRegisters, toByte_opcode]
  exact Stream.wordOfBytes_fields w

theorem imm_eq_append (w : Word) : w.imm = w.b ++ w.c := by
  apply BitVec.eq_of_toNat_eq
  rw [toNat_append_byte, imm, b, c]
  simp only [BitVec.extractLsb'_toNat, Nat.shiftRight_eq_div_pow]
  omega

theorem ofImmediate_append (op : Opcode) (a b c : BitVec 8) :
    ofImmediate op a (b ++ c) = ofRegisters op a b c := by
  apply BitVec.eq_of_toNat_eq
  rw [toNat_ofImmediate, toNat_ofRegisters, toNat_append_byte]
  omega

/-- The mask of a byte that is used or not. -/
def byteMask (used : Bool) : BitVec 8 := if used then 0xFF else 0

theorem and_byteMask (x : BitVec 8) (used : Bool) :
    x &&& byteMask used = if used then x else 0 := by
  cases used with
  | false => exact BitVec.and_zero
  | true => exact BitVec.and_allOnes

/-- A mask that keeps the opcode keeps or clears each of the other bytes. -/
theorem and_mask (w : Word) (x y z : Bool) :
    w &&& (0xFF#8 ++ byteMask x ++ byteMask y ++ byteMask z) =
      ofRegisters w.opcode (if x then w.a else 0) (if y then w.b else 0)
        (if z then w.c else 0) := by
  have hop : w.opcode.toByte &&& 0xFF#8 = w.opcode.toByte := BitVec.and_allOnes
  conv => lhs; rw [← ofRegisters_parts w]
  rw [ofRegisters, BitVec.and_append, BitVec.and_append, BitVec.and_append, hop, and_byteMask,
    and_byteMask, and_byteMask]
  rfl

/-- The used bits of a register form are those of the first so many registers. -/
theorem usedBits_reg {op : Opcode} (h : op.form = .reg) :
    op.usedBits = 0xFF#8 ++ byteMask (decide (0 < op.operands)) ++
      byteMask (decide (1 < op.operands)) ++ byteMask (decide (2 < op.operands)) := by
  simp only [Opcode.usedBits, h]
  obtain hn | hn | hn | ⟨n, hn⟩ : op.operands = 0 ∨ op.operands = 1 ∨ op.operands = 2 ∨
      ∃ n, op.operands = n + 3 := by
    by_cases hlt : op.operands < 3
    · omega
    · exact .inr (.inr (.inr ⟨op.operands - 3, by omega⟩))
  · rw [hn]
    rfl
  · rw [hn]
    rfl
  · rw [hn]
    rfl
  · rw [hn, decide_eq_true (by omega), decide_eq_true (by omega), decide_eq_true (by omega)]
    rfl

/-- **A word that is read and packed again** is left with the bits that its form uses. -/
theorem encode_of_decode {w : Word} {f : Fields} (h : w.decode = .ok f) :
    f.encode = .ok (w &&& f.op.usedBits) := by
  unfold decode at h
  cases hinfo : w.opcode.info? with
  | none => simp [hinfo] at h
  | some info =>
    have hform := Opcode.form_of_info? hinfo
    have hoperands := Opcode.operands_of_info? hinfo
    simp only [hinfo] at h
    cases hi : info.form with
    | none =>
      simp only [hi] at h
      cases h
      have hbits : w &&& w.opcode.usedBits = ofRegisters w.opcode 0 0 0 := by
        simp only [Opcode.usedBits, hform, hi]
        exact and_mask w false false false
      simp [Fields.encode, hinfo, hi, hbits]
    | reg =>
      simp only [hi] at h
      cases h
      rw [usedBits_reg (hform.trans hi), and_mask, hoperands]
      simp only [Fields.encode, hinfo, hi, decide_eq_true_eq]
      refine (if_neg ?_).trans (if_neg (by simp))
      have hblank := (Fields.drop_regs_iff ⟨w.opcode, if 0 < info.operands then w.a else 0,
        if 1 < info.operands then w.b else 0, if 2 < info.operands then w.c else 0, 0⟩
        info.operands).mpr
      have hzero := hblank fun k hk hn => by
        obtain _ | _ | _ | k := k
        · exact if_neg (by omega)
        · exact if_neg (by omega)
        · exact if_neg (by omega)
        · omega
      simpa using hzero
    | regImm =>
      simp only [hi] at h
      cases h
      have hbits : w &&& w.opcode.usedBits = ofImmediate w.opcode w.a w.imm := by
        simp only [Opcode.usedBits, hform, hi]
        rw [imm_eq_append, ofImmediate_append]
        exact and_mask w true true true
      simp [Fields.encode, hinfo, hi, hbits]
    | addr =>
      simp only [hi] at h
      cases h
      have hbits : w &&& w.opcode.usedBits = ofImmediate w.opcode 0 w.imm := by
        simp only [Opcode.usedBits, hform, hi]
        rw [imm_eq_append, ofImmediate_append]
        exact and_mask w false true true
      simp [Fields.encode, hinfo, hi, hbits]

/-! ## There and back -/

/-- **Words and fields, there and back.**  Fields make a word exactly if their opcode is in the
table and the fields that its form does not use are zero, and the word gives them back.  A word has
no fields exactly if its first byte is not in the table; else the fields make a word again, with
the bits of unused fields cleared.  So no two fields make one word, and a word comes back from its
fields exactly if it was made of some. -/
theorem word_roundTrip :
    (∀ f : Fields, (∃ w, f.encode = .ok w) ↔ f.op.isAssigned = true ∧ f.Blank) ∧
    (∀ (f : Fields) (w : Word), f.encode = .ok w → w.decode = .ok f) ∧
    (∀ w : Word, (∃ e, w.decode = .error e) ↔
      ∀ op : Opcode, op.isAssigned = true → op.toByte ≠ w.firstByte) ∧
    (∀ (w : Word) (f : Fields), w.decode = .ok f → f.encode = .ok (w &&& f.op.usedBits)) ∧
    (∀ (f g : Fields) (w : Word), f.encode = .ok w → g.encode = .ok w → f = g) ∧
    (∀ w : Word, (∃ f : Fields, w.decode = .ok f ∧ f.encode = .ok w) ↔
      ∃ f : Fields, f.encode = .ok w) := by
  refine ⟨Fields.encode_iff, fun f w => decode_of_encode, decode_error_iff,
    fun w f => encode_of_decode, ?_, ?_⟩
  · intro f g w hf hg
    have hsame : Except.ok f = Except.ok g := (decode_of_encode hf).symm.trans (decode_of_encode hg)
    exact Except.ok.inj hsame
  · intro w
    constructor
    · rintro ⟨f, -, hf⟩
      exact ⟨f, hf⟩
    · rintro ⟨f, hf⟩
      exact ⟨f, decode_of_encode hf, hf⟩

/-- A copy from the register 2 to the register 1, and the word of it with stray bits in its last
byte. -/
theorem copy_roundTrip :
    Fields.encode { op := .mov, a := 1, b := 2 } = .ok 0x24010200 ∧
    decode 0x24010200 = .ok { op := .mov, a := 1, b := 2 } ∧
    decode 0x24010203 = .ok { op := .mov, a := 1, b := 2 } ∧
    Fields.encode { op := .mov, a := 1, b := 2 } =
      .ok (0x24010203 &&& Opcode.usedBits .mov) := by
  obtain ⟨-, hback, -, hagain, -, -⟩ := word_roundTrip
  exact ⟨by decide, hback _ _ (by decide), by decide, hagain 0x24010203 _ (by decide)⟩

end Word

end Isel.Machine
