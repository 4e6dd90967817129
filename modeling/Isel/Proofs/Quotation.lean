import Mathlib.Algebra.Group.Nat.Defs
import Mathlib.Data.Option.Basic
import Isel.Text.Quoted

/-!
# Reading quoted text

A byte string can be read back from its quoted text, so `quote` is injective.  Two readings are
put together: the pieces are read back from the text, one after the other (`readPiece`), and each
piece is the encoding of the bytes that it took (`Utf8.source_pieces`).
-/

namespace Isel.Text

/-! ## Hexadecimal digits -/

/-- The number that hexadecimal digits stand for. -/
def readHex (c : LetterCase) (digits : List Char) : Nat :=
  digits.foldl (fun n d => 16 * n + c.digits.idxOf d) 0

section Hex

variable {c : LetterCase} {width n : Nat}

theorem idxOf_hexDigit (c : LetterCase) (n : Nat) : c.digits.idxOf (hexDigit c n) = n % 16 := by
  have hall : ∀ k < 16, c.digits.idxOf (c.digits.getD k '0') = k := by
    cases c <;> decide
  exact hall (n % 16) (Nat.mod_lt n (by decide))

theorem readHex_hexChars (h : n < 16 ^ width) : readHex c (hexChars c width n) = n := by
  induction width generalizing n with
  | zero =>
    rw [Nat.pow_zero, Nat.lt_one_iff] at h
    rw [h]
    rfl
  | succ width ih =>
    have hdiv : n / 16 < 16 ^ width := by
      rw [Nat.pow_succ] at h
      omega
    have hlead := ih hdiv
    rw [readHex] at hlead
    rw [readHex, hexChars, List.foldl_append, hlead, List.foldl_cons, List.foldl_nil,
      idxOf_hexDigit]
    exact Nat.div_add_mod n 16

theorem mem_digits_of_mem_hexChars {d : Char} (h : d ∈ hexChars c width n) : d ∈ c.digits := by
  have hdigit : ∀ n, hexDigit c n ∈ c.digits := by
    intro n
    have hlt : n % 16 < c.digits.length := by
      have hlength : c.digits.length = 16 := by cases c <;> rfl
      rw [hlength]
      exact Nat.mod_lt n (by decide)
    rw [hexDigit, List.getD_eq_getElem?_getD, List.getElem?_eq_getElem hlt]
    exact List.getElem_mem hlt
  induction width generalizing n with
  | zero => cases h
  | succ width ih =>
    rw [hexChars, List.mem_append, List.mem_singleton] at h
    rcases h with h | rfl
    · exact ih h
    · exact hdigit n

end Hex

/-! ## Pieces of a byte string -/

namespace Utf8

/-- The bytes of the character of a number. -/
def encoded (n : Nat) : List UInt8 :=
  if n < 0x80 then [.ofNat n]
  else if n < 0x800 then [.ofNat (0xC0 + n / 0x40), .ofNat (0x80 + n % 0x40)]
  else if n < 0x10000 then
    [.ofNat (0xE0 + n / 0x1000), .ofNat (0x80 + n / 0x40 % 0x40), .ofNat (0x80 + n % 0x40)]
  else
    [.ofNat (0xF0 + n / 0x40000), .ofNat (0x80 + n / 0x1000 % 0x40),
      .ofNat (0x80 + n / 0x40 % 0x40), .ofNat (0x80 + n % 0x40)]

/-- The bytes that a piece took. -/
def Piece.source : Piece → List UInt8
  | .char c => encoded c.toNat
  | .stray b => [b]

section Source

variable {b b1 b2 b3 : UInt8} {rest : List UInt8} {c : Char}

theorem ofNat_eq {n : Nat} (h : n = b.toNat) : UInt8.ofNat n = b := by
  rw [h, UInt8.ofNat_toNat]

theorem bounds_of_between {lo hi : UInt8} (h : (decide (lo ≤ b) && decide (b < hi)) = true) :
    lo.toNat ≤ b.toNat ∧ b.toNat < hi.toNat := by
  rw [Bool.and_eq_true, decide_eq_true_iff, decide_eq_true_iff] at h
  exact ⟨UInt8.le_iff_toNat_le.mp h.1, UInt8.lt_iff_toNat_lt.mp h.2⟩

theorem continuation?_eq_some {x : Nat} (h : continuation? b = some x) :
    b.toNat = 0x80 + x ∧ x < 0x40 := by
  rw [continuation?] at h
  split at h
  · next hb =>
    have hx := Option.some.inj h
    have hbounds : 0x80 ≤ b.toNat ∧ b.toNat < 0xC0 := bounds_of_between hb
    omega
  · cases h

theorem of_guard {p : Prop} [Decidable p] {u : Unit} (h : (guard p : Option Unit) = some u) :
    p := by
  rw [guard] at h
  split at h
  · assumption
  · cases h

theorem toNat_ofNat {n : Nat} (h : n < 0xD800 ∨ 0xDFFF < n ∧ n < 0x110000) :
    (Char.ofNat n).toNat = n := by
  have hvalid : n.isValidChar := h
  rw [Char.ofNat, dif_pos hvalid]
  rfl

theorem source_char2? (h : char2? b (b1 :: rest) = some c) : encoded c.toNat = [b, b1] := by
  simp only [char2?, Option.bind_eq_bind, Option.bind_eq_some_iff] at h
  obtain ⟨_, hguard, x1, hx1, hc⟩ := h
  have hb : 0xC2 ≤ b.toNat ∧ b.toNat < 0xE0 := bounds_of_between (of_guard hguard)
  obtain ⟨hb1, hlt1⟩ := continuation?_eq_some hx1
  obtain rfl := Option.some.inj hc
  rw [toNat_ofNat (by omega), encoded, if_neg (by omega), if_pos (by omega),
    ofNat_eq (b := b) (by omega), ofNat_eq (b := b1) (by omega)]

theorem source_char3? (h : char3? b (b1 :: b2 :: rest) = some c) :
    encoded c.toNat = [b, b1, b2] := by
  simp only [char3?, Option.bind_eq_bind, Option.bind_eq_some_iff] at h
  obtain ⟨_, hguard, x1, hx1, x2, hx2, _, hrange, hc⟩ := h
  have hb : 0xE0 ≤ b.toNat ∧ b.toNat < 0xF0 := bounds_of_between (of_guard hguard)
  obtain ⟨hb1, hlt1⟩ := continuation?_eq_some hx1
  obtain ⟨hb2, hlt2⟩ := continuation?_eq_some hx2
  have hn := of_guard hrange
  simp only [Bool.and_eq_true, Bool.or_eq_true, decide_eq_true_eq] at hn
  obtain rfl := Option.some.inj hc
  rw [toNat_ofNat (by omega), encoded, if_neg (by omega), if_neg (by omega), if_pos (by omega),
    ofNat_eq (b := b) (by omega), ofNat_eq (b := b1) (by omega), ofNat_eq (b := b2) (by omega)]

theorem source_char4? (h : char4? b (b1 :: b2 :: b3 :: rest) = some c) :
    encoded c.toNat = [b, b1, b2, b3] := by
  simp only [char4?, Option.bind_eq_bind, Option.bind_eq_some_iff] at h
  obtain ⟨_, hguard, x1, hx1, x2, hx2, x3, hx3, _, hrange, hc⟩ := h
  have hb : 0xF0 ≤ b.toNat ∧ b.toNat < 0xF5 := bounds_of_between (of_guard hguard)
  obtain ⟨hb1, hlt1⟩ := continuation?_eq_some hx1
  obtain ⟨hb2, hlt2⟩ := continuation?_eq_some hx2
  obtain ⟨hb3, hlt3⟩ := continuation?_eq_some hx3
  have hn := of_guard hrange
  simp only [Bool.and_eq_true, decide_eq_true_eq] at hn
  obtain rfl := Option.some.inj hc
  rw [toNat_ofNat (by omega), encoded, if_neg (by omega), if_neg (by omega), if_neg (by omega),
    ofNat_eq (b := b) (by omega), ofNat_eq (b := b1) (by omega), ofNat_eq (b := b2) (by omega),
    ofNat_eq (b := b3) (by omega)]

theorem source_lead (b : UInt8) (rest : List UInt8) :
    (lead b rest).1.source = b :: rest.take (lead b rest).2 := by
  rw [lead]
  split
  · next hb =>
    have hlt : b.toNat < 0x80 := UInt8.lt_iff_toNat_lt.mp hb
    show encoded (Char.ofNat b.toNat).toNat = [b]
    rw [toNat_ofNat (by omega), encoded, if_pos hlt, UInt8.ofNat_toNat]
  · split
    · next c h =>
      match rest, h with
      | b1 :: rest, h => exact source_char2? h
    · split
      · next c h =>
        match rest, h with
        | b1 :: b2 :: rest, h => exact source_char3? h
      · split
        · next c h =>
          match rest, h with
          | b1 :: b2 :: b3 :: rest, h => exact source_char4? h
        · rfl

theorem source_piecesFrom : ∀ (bytes : List UInt8) (skip : Nat),
    (piecesFrom skip bytes).flatMap Piece.source = bytes.drop skip := by
  intro bytes
  induction bytes with
  | nil =>
    intro skip
    cases skip <;> rfl
  | cons b rest ih =>
    intro skip
    cases skip with
    | zero =>
      rw [piecesFrom, List.flatMap_cons, ih, source_lead, List.cons_append, List.take_append_drop,
        List.drop_zero]
    | succ skip =>
      rw [piecesFrom, ih, List.drop_succ_cons]

/-- **The pieces of a byte string make it up.** -/
theorem source_pieces (bytes : List UInt8) : (pieces bytes).flatMap Piece.source = bytes :=
  source_piecesFrom bytes 0

end Source

/-- A byte that belongs to no character is above ASCII. -/
def Piece.Sound : Piece → Prop
  | .char _ => True
  | .stray b => 0x80 ≤ b.toNat

theorem sound_lead (b : UInt8) (rest : List UInt8) : (lead b rest).1.Sound := by
  rw [lead]
  split
  · trivial
  · next hb =>
    have hge : 0x80 ≤ b.toNat := Nat.not_lt.mp fun hlt => hb (UInt8.lt_iff_toNat_lt.mpr hlt)
    split
    · trivial
    · split
      · trivial
      · split
        · trivial
        · exact hge

theorem sound_piecesFrom : ∀ (bytes : List UInt8) (skip : Nat),
    ∀ p ∈ piecesFrom skip bytes, p.Sound := by
  intro bytes
  induction bytes with
  | nil =>
    intro skip p hp
    cases skip <;> cases hp
  | cons b rest ih =>
    intro skip p hp
    cases skip with
    | zero =>
      rw [piecesFrom] at hp
      rcases List.mem_cons.mp hp with rfl | hp
      · exact sound_lead b rest
      · exact ih _ p hp
    | succ skip => exact ih skip p hp

end Utf8

/-! ## Quoted pieces -/

open Utf8 (Piece)

/-- The control character of a letter; other characters stand for themselves. -/
def letterControl (letter : Char) : Char :=
  match letter with
  | 'a' => Char.ofNat 0x07
  | 'b' => Char.ofNat 0x08
  | 't' => Char.ofNat 0x09
  | 'n' => Char.ofNat 0x0A
  | 'v' => Char.ofNat 0x0B
  | 'f' => Char.ofNat 0x0C
  | 'r' => Char.ofNat 0x0D
  | c => c

/-- The piece that is written behind a backslash, and the text behind it. -/
def readEscape : List Char → Piece × List Char
  | [] => (.char '\\', [])
  | d :: rest =>
    if d = 'x' then
      let n := readHex .lower (rest.take 2)
      (if n < 0x80 then .char (Char.ofNat n) else .stray (UInt8.ofNat n), rest.drop 2)
    else if d = 'u' then (.char (Char.ofNat (readHex .lower (rest.take 4))), rest.drop 4)
    else if d = 'U' then (.char (Char.ofNat (readHex .lower (rest.take 8))), rest.drop 8)
    else (.char (letterControl d), rest)

/-- The first piece of a quoted text, and the text behind it. -/
def readPiece : List Char → Piece × List Char
  | [] => (.char '\\', [])
  | c :: rest => if c = '\\' then readEscape rest else (.char c, rest)

section Quoted

variable {rest : List Char}

theorem readHex_take (width : Nat) {n : Nat} (h : n < 16 ^ width) (rest : List Char) :
    readHex .lower ((hexChars .lower width n ++ rest).take width) = n ∧
      (hexChars .lower width n ++ rest).drop width = rest := by
  have hlength := length_hexChars .lower width n
  rw [List.take_append_of_le_length (Nat.le_of_eq hlength.symm), List.take_of_length_le
    (Nat.le_of_eq hlength), readHex_hexChars h]
  refine ⟨rfl, ?_⟩
  rw [List.drop_append_of_le_length (Nat.le_of_eq hlength.symm), List.drop_of_length_le
    (Nat.le_of_eq hlength), List.nil_append]

theorem readPiece_letter {c letter : Char} (h : controlLetter? c = some letter) :
    readPiece ('\\' :: letter :: rest) = (.char c, rest) := by
  rw [controlLetter?] at h
  split at h
  case h_8 => cases h
  all_goals
    next hc =>
    cases h
    rw [← Char.ofNat_toNat c, hc]
    rfl

theorem readPiece_byte {n : Nat} (h : n < 16 ^ 2) :
    readPiece ('\\' :: 'x' :: hexChars .lower 2 n ++ rest) =
      (if n < 0x80 then .char (Char.ofNat n) else .stray (UInt8.ofNat n), rest) := by
  obtain ⟨htake, hdrop⟩ := readHex_take 2 h rest
  simp only [List.cons_append, readPiece, readEscape, if_true, htake, hdrop]

theorem readPiece_number (c : Char) :
    readPiece (escapeByNumber c ++ rest) = (.char c, rest) := by
  have hlt : c.toNat < 0x110000 := by
    rcases c.valid with h | h
    · exact Nat.lt_trans h (by decide)
    · exact h.2
  rw [escapeByNumber]
  split
  · next hsmall =>
    rw [readPiece_byte (Nat.lt_trans hsmall (by decide)), if_pos hsmall, Char.ofNat_toNat]
  · split
    · next hsmall =>
      obtain ⟨htake, hdrop⟩ := readHex_take 4 hsmall rest
      have hne : ('u' : Char) ≠ 'x' := by decide
      simp only [List.cons_append, readPiece, readEscape, if_true, if_neg hne, htake, hdrop,
        Char.ofNat_toNat]
    · obtain ⟨htake, hdrop⟩ := readHex_take 8 (Nat.lt_trans hlt (by decide)) rest
      have hne : ('U' : Char) ≠ 'x' ∧ ('U' : Char) ≠ 'u' := by decide
      simp only [List.cons_append, readPiece, readEscape, if_true, if_neg hne.1, if_neg hne.2,
        htake, hdrop, Char.ofNat_toNat]

/-- **A piece is read back**, whatever comes behind it. -/
theorem readPiece_quotedPiece {p : Piece} (h : p.Sound) :
    readPiece (quotedPiece p ++ rest) = (p, rest) := by
  cases p with
  | stray b =>
    have hge : 0x80 ≤ b.toNat := h
    rw [quotedPiece, readPiece_byte b.toNat_lt, if_neg (Nat.not_lt.mpr hge), UInt8.ofNat_toNat]
  | char c =>
    rw [quotedPiece, quotedChar]
    split
    · next hc =>
      rw [Bool.or_eq_true, decide_eq_true_iff, decide_eq_true_iff] at hc
      rcases hc with rfl | rfl <;> rfl
    · next hc =>
      split
      · have hne : c ≠ '\\' := by
          rintro rfl
          exact hc rfl
        rw [List.singleton_append, readPiece, if_neg hne]
      · split
        · next letter hletter => exact readPiece_letter hletter
        · exact readPiece_number c

theorem quotedPiece_ne_nil {p : Piece} (h : p.Sound) : quotedPiece p ≠ [] := by
  intro hnil
  have hread : readPiece (quotedPiece p ++ []) = (p, []) := readPiece_quotedPiece h
  rw [hnil] at hread
  cases hread
  cases hnil

theorem flatMap_quotedPiece_injective : ∀ {ps qs : List Piece}, (∀ p ∈ ps, p.Sound) →
    (∀ q ∈ qs, q.Sound) → ps.flatMap quotedPiece = qs.flatMap quotedPiece → ps = qs := by
  intro ps
  induction ps with
  | nil =>
    intro qs _ hqs h
    cases qs with
    | nil => rfl
    | cons q qs =>
      rw [List.flatMap_nil, List.flatMap_cons, eq_comm, List.append_eq_nil_iff] at h
      exact absurd h.1 (quotedPiece_ne_nil (hqs q List.mem_cons_self))
  | cons p ps ih =>
    intro qs hps hqs h
    rw [List.forall_mem_cons] at hps
    cases qs with
    | nil =>
      rw [List.flatMap_nil, List.flatMap_cons, List.append_eq_nil_iff] at h
      exact absurd h.1 (quotedPiece_ne_nil hps.1)
    | cons q qs =>
      rw [List.forall_mem_cons] at hqs
      rw [List.flatMap_cons, List.flatMap_cons] at h
      have hread := congrArg readPiece h
      rw [readPiece_quotedPiece hps.1, readPiece_quotedPiece hqs.1, Prod.mk.injEq] at hread
      rw [hread.1, ih hps.2 hqs.2 hread.2]

end Quoted

/-- **Quoting is injective.** -/
theorem quote_injective : Function.Injective quote := by
  intro bytes bytes' h
  have htext := String.ofList_injective h
  rw [List.append_cancel_right_eq, List.append_cancel_left_eq] at htext
  have hpieces : Utf8.pieces bytes = Utf8.pieces bytes' := flatMap_quotedPiece_injective
    (Utf8.sound_piecesFrom bytes 0) (Utf8.sound_piecesFrom bytes' 0) htext
  rw [← Utf8.source_pieces bytes, ← Utf8.source_pieces bytes', hpieces]

theorem newline_not_mem_hexChars (width n : Nat) : '\n' ∉ hexChars .lower width n :=
  fun h => absurd (mem_digits_of_mem_hexChars h) (by decide)

theorem newline_not_mem_quotedPiece (p : Piece) : '\n' ∉ quotedPiece p := by
  cases p with
  | stray b => simp [quotedPiece, newline_not_mem_hexChars]
  | char c =>
    rw [quotedPiece, quotedChar]
    split
    · next hc =>
      rw [Bool.or_eq_true, decide_eq_true_iff, decide_eq_true_iff] at hc
      rcases hc with rfl | rfl <;> decide
    · split
      · next hprintable =>
        intro hmem
        rw [← List.mem_singleton.mp hmem] at hprintable
        cases hprintable
      · split
        · next letter hletter =>
          rw [controlLetter?] at hletter
          split at hletter
          case h_8 => cases hletter
          all_goals
            cases hletter
            decide
        · rw [escapeByNumber]
          split
          · simp [newline_not_mem_hexChars]
          · split <;> simp [newline_not_mem_hexChars]

theorem newline_not_mem_quote (bytes : List UInt8) : '\n' ∉ (quote bytes).toList := by
  simp [quote, newline_not_mem_quotedPiece]

end Isel.Text
