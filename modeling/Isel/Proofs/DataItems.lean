import Mathlib.Data.List.Basic
import Isel.Il.Data

/-!
# Reading data items

`Reads` is the grammar of data items, said without regard to how they are written here: items
stand between commas, and an item is the letter `b` and behind it either characters between
quotes, which stand for their own bytes, or a decimal numeral, which stands for one byte.  Blanks
may stand around a comma and behind the letter, and a numeral may have zeros in front.

No text can be read in two ways (`Reads.unique`), although a comma, a blank and the letter `b` may
also stand between quotes.  The text of a byte string can be read, and what is read is the byte
string and a zero byte (`dataText_reads`).
-/

namespace Isel.Il

/-! ## The grammar -/

/-- What stands behind the letter of an item. -/
inductive Lexeme where
  | quoted (chars : List Char)
  | numeral (digits : List Char)
  deriving DecidableEq, Repr

namespace Lexeme

def text : Lexeme → List Char
  | quoted chars => '"' :: chars ++ ['"']
  | numeral digits => digits

/-- Neither quotes nor backslashes stand between quotes, and a numeral is that of a byte. -/
def WellFormed : Lexeme → Prop
  | quoted chars => '"' ∉ chars ∧ '\\' ∉ chars
  | numeral digits =>
    digits ≠ [] ∧ (∀ d ∈ digits, d.isDigit = true) ∧ Nat.ofDigitChars 10 digits 0 < 256

/-- The bytes that it stands for. -/
def bytes : Lexeme → List UInt8
  | quoted chars => chars.flatMap String.utf8EncodeChar
  | numeral digits => [UInt8.ofNat (Nat.ofDigitChars 10 digits 0)]

/-- An item, with at least one blank behind its letter. -/
def item (l : Lexeme) (blanks : Nat) : List Char :=
  'b' :: (List.replicate (blanks + 1) ' ' ++ l.text)

end Lexeme

/-- A comma with the blanks around it. -/
def comma (before after : Nat) : List Char :=
  List.replicate before ' ' ++ ',' :: List.replicate after ' '

/-- The text is read as these items. -/
inductive Reads : List Lexeme → List Char → Prop
  | last {l : Lexeme} (hl : l.WellFormed) (blanks : Nat) : Reads [l] (l.item blanks)
  | cons {l : Lexeme} {ls : List Lexeme} {text : List Char} (hl : l.WellFormed)
      (blanks before after : Nat) (h : Reads ls text) :
      Reads (l :: ls) (l.item blanks ++ (comma before after ++ text))

/-! ## There is one way to read -/

/-- The text does not go on with a character of the class. -/
def Stops (p : Char → Bool) (rest : List Char) : Prop := ∀ c ∈ rest.head?, p c = false

/-- Characters of a class can be told from a text that does not go on with one. -/
theorem append_inj_of_stops {p : Char → Bool} {front front' rest rest' : List Char}
    (hfront : ∀ c ∈ front, p c = true) (hfront' : ∀ c ∈ front', p c = true) (hrest : Stops p rest)
    (hrest' : Stops p rest') (h : front ++ rest = front' ++ rest') :
    front = front' ∧ rest = rest' := by
  have hspan : ∀ {x y : List Char}, (∀ c ∈ x, p c = true) → Stops p y →
      (x ++ y).takeWhile p = x := by
    intro x y hx hy
    rw [List.takeWhile_append_of_pos hx]
    cases y with
    | nil => simp
    | cons c y =>
      have hc : p c = false := hy c rfl
      rw [List.takeWhile_cons_of_neg (by simp [hc]), List.append_nil]
  have heq : front = front' := by
    rw [← hspan hfront hrest, h, hspan hfront' hrest']
  subst heq
  exact ⟨rfl, List.append_cancel_left h⟩

theorem eq_of_blanks_append {n m : Nat} {x y : List Char} (hx : Stops (· == ' ') x)
    (hy : Stops (· == ' ') y) (h : List.replicate n ' ' ++ x = List.replicate m ' ' ++ y) :
    x = y := by
  have hblank : ∀ k, ∀ c ∈ List.replicate k ' ', (c == ' ') = true := by
    intro k c hc
    simp [List.eq_of_mem_replicate hc]
  exact (append_inj_of_stops (hblank n) (hblank m) hx hy h).2

theorem stops_isDigit_comma (before after : Nat) (text : List Char) :
    Stops Char.isDigit (comma before after ++ text) := by
  intro c hc
  cases before with
  | zero =>
    obtain rfl : ',' = c := Option.some.inj hc
    decide
  | succ n =>
    obtain rfl : ' ' = c := Option.some.inj hc
    decide

namespace Lexeme

variable {l l' : Lexeme} {rest rest' : List Char}

/-- The first character tells the two forms apart. -/
theorem WellFormed.head?_text (h : l.WellFormed) :
    ∃ c, l.text.head? = some c ∧ c ≠ ' ' ∧ (c.isDigit = true ↔ ∃ digits, l = numeral digits) := by
  cases l with
  | quoted chars => exact ⟨'"', rfl, by decide, by simp⟩
  | numeral digits =>
    obtain ⟨hne, hdigits, -⟩ := h
    cases digits with
    | nil => exact absurd rfl hne
    | cons d ds =>
      have hd : d.isDigit = true := hdigits d (by simp)
      refine ⟨d, rfl, ?_, by simp [hd]⟩
      rintro rfl
      exact absurd hd (by decide)

theorem WellFormed.stops_blank (h : l.WellFormed) (rest : List Char) :
    Stops (· == ' ') (l.text ++ rest) := by
  obtain ⟨c, hc, hblank, -⟩ := h.head?_text
  intro d hd
  rw [List.head?_append, hc] at hd
  obtain rfl : c = d := Option.some.inj hd
  simpa using hblank

/-- **What stands behind the letter can be told from the rest of the text.** -/
theorem eq_of_text_append (h : l.WellFormed) (h' : l'.WellFormed) (hrest : Stops Char.isDigit rest)
    (hrest' : Stops Char.isDigit rest') (heq : l.text ++ rest = l'.text ++ rest') :
    l = l' ∧ rest = rest' := by
  obtain ⟨c, hc, -, hdigit⟩ := h.head?_text
  obtain ⟨c', hc', -, hdigit'⟩ := h'.head?_text
  have hfirst : c = c' := by
    have hhead := congrArg List.head? heq
    rw [List.head?_append, List.head?_append, hc, hc'] at hhead
    exact Option.some.inj hhead
  subst hfirst
  cases l with
  | quoted chars =>
    cases l' with
    | quoted chars' =>
      simp only [text, List.cons_append, List.append_assoc, List.nil_append, List.cons.injEq,
        true_and] at heq
      have hinside : ∀ {cs : List Char}, '"' ∉ cs → ∀ c ∈ cs, (c != '"') = true := by
        intro cs hcs c hc
        simpa using ne_of_mem_of_not_mem hc hcs
      have hquote : ∀ r : List Char, Stops (· != '"') ('"' :: r) := by
        intro r c hc
        obtain rfl : '"' = c := Option.some.inj hc
        rfl
      obtain ⟨hchars, hrests⟩ :=
        append_inj_of_stops (hinside h.1) (hinside h'.1) (hquote rest) (hquote rest') heq
      exact ⟨congrArg quoted hchars, (List.cons.inj hrests).2⟩
    | numeral digits' =>
      obtain ⟨_, hl⟩ := hdigit.mp (hdigit'.mpr ⟨_, rfl⟩)
      cases hl
  | numeral digits =>
    cases l' with
    | quoted chars' =>
      obtain ⟨_, hl⟩ := hdigit'.mp (hdigit.mpr ⟨_, rfl⟩)
      cases hl
    | numeral digits' =>
      obtain ⟨hdigits, hrests⟩ := append_inj_of_stops h.2.1 h'.2.1 hrest hrest' heq
      exact ⟨congrArg numeral hdigits, hrests⟩

theorem eq_of_item_append {n n' : Nat} (h : l.WellFormed) (h' : l'.WellFormed)
    (hrest : Stops Char.isDigit rest) (hrest' : Stops Char.isDigit rest')
    (heq : l.item n ++ rest = l'.item n' ++ rest') : l = l' ∧ rest = rest' := by
  simp only [item, List.cons_append, List.append_assoc, List.cons.injEq, true_and] at heq
  exact eq_of_text_append h h' hrest hrest'
    (eq_of_blanks_append (h.stops_blank rest) (h'.stops_blank rest') heq)

end Lexeme

theorem Reads.stops_blank {ls : List Lexeme} {text : List Char} (h : Reads ls text) :
    Stops (· == ' ') text := by
  have hhead : text.head? = some 'b' := by
    cases h <;> rfl
  intro c hc
  rw [hhead] at hc
  obtain rfl : 'b' = c := Option.some.inj hc
  rfl

/-- What stands behind a comma can be told from the blanks around it. -/
theorem eq_of_comma_append {n m n' m' : Nat} {text text' : List Char}
    (h : Stops (· == ' ') text) (h' : Stops (· == ' ') text')
    (heq : comma n m ++ text = comma n' m' ++ text') : text = text' := by
  have hcomma : ∀ r : List Char, Stops (· == ' ') (',' :: r) := by
    intro r c hc
    obtain rfl : ',' = c := Option.some.inj hc
    rfl
  simp only [comma, List.append_assoc, List.cons_append] at heq
  exact eq_of_blanks_append h h'
    (List.cons.inj (eq_of_blanks_append (hcomma _) (hcomma _) heq)).2

/-- **A text is read in one way at most.** -/
theorem Reads.unique {ls ls' : List Lexeme} {text : List Char} (h : Reads ls text)
    (h' : Reads ls' text) : ls = ls' := by
  have hend : Stops Char.isDigit [] := fun _ hc => by cases hc
  have hmore : ∀ {n m : Nat} {t : List Char}, comma n m ++ t ≠ [] := by
    simp [comma]
  -- The first items agree, and then the texts behind their commas, if there are any.
  induction h generalizing ls' with
  | @last l hl n =>
    rw [← List.append_nil (l.item n)] at h'
    generalize ht : l.item n ++ [] = whole at h'
    cases h' with
    | @last l' hl' n' =>
      rw [← List.append_nil (l'.item n')] at ht
      obtain ⟨rfl, -⟩ := Lexeme.eq_of_item_append hl hl' hend hend ht
      rfl
    | cons hl' n' before after =>
      obtain ⟨-, hnil⟩ :=
        Lexeme.eq_of_item_append hl hl' hend (stops_isDigit_comma before after _) ht
      exact absurd hnil.symm hmore
  | @cons l ls text hl n before after h ih =>
    generalize ht : l.item n ++ (comma before after ++ text) = whole at h'
    cases h' with
    | @last l' hl' n' =>
      rw [← List.append_nil (l'.item n')] at ht
      obtain ⟨-, hnil⟩ :=
        Lexeme.eq_of_item_append hl hl' (stops_isDigit_comma before after _) hend ht
      exact absurd hnil hmore
    | @cons l' ls' text' hl' n' before' after' h' =>
      obtain ⟨rfl, hrest⟩ := Lexeme.eq_of_item_append hl hl' (stops_isDigit_comma before after _)
        (stops_isDigit_comma before' after' _) ht
      obtain rfl := eq_of_comma_append h.stops_blank h'.stops_blank hrest
      rw [ih h']

/-! ## How items are written -/

namespace Item

def lexeme : Item → Lexeme
  | .quoted run => .quoted (run.map fun b => Char.ofNat b.toNat)
  | .byte b => .numeral (Nat.toDigits 10 b.toNat)

/-- A quoted item holds plain bytes only. -/
def Clean : Item → Prop
  | .quoted run => ∀ b ∈ run, isPlain b = true
  | .byte _ => True

/-- The bytes that an item is for. -/
def source : Item → List UInt8
  | .quoted run => run
  | .byte b => [b]

theorem toList_text (i : Item) : i.text.toList = i.lexeme.item 0 := by
  cases i with
  | quoted run => simp [text, lexeme, Lexeme.item, Lexeme.text]
  | byte b => simp [text, lexeme, Lexeme.item, Lexeme.text, Nat.toString_eq_repr, Nat.toList_repr]

end Item

theorem isPlain_bounds {b : UInt8} (h : isPlain b = true) :
    b.toNat < 0x7F ∧ b.toNat ≠ '"'.toNat ∧ b.toNat ≠ '\\'.toNat := by
  simp only [isPlain, Bool.and_eq_true, decide_eq_true_eq, bne_iff_ne] at h
  obtain ⟨⟨⟨-, hlt⟩, hquote⟩, hbackslash⟩ := h
  refine ⟨UInt8.lt_iff_toNat_lt.mp hlt, ?_, ?_⟩
  · intro hb
    exact hquote (UInt8.toNat_inj.mp hb)
  · intro hb
    exact hbackslash (UInt8.toNat_inj.mp hb)

theorem toNat_ofNat_byte (b : UInt8) : (Char.ofNat b.toNat).toNat = b.toNat := by
  have hlt := b.toNat_lt
  have hvalid : b.toNat.isValidChar := .inl (by omega)
  rw [Char.ofNat, dif_pos hvalid]
  rfl

theorem utf8EncodeChar_of_isPlain {b : UInt8} (h : isPlain b = true) :
    String.utf8EncodeChar (Char.ofNat b.toNat) = [b] := by
  have hlt := (isPlain_bounds h).1
  have hnumber : (Char.ofNat b.toNat).val.toNat = b.toNat := toNat_ofNat_byte b
  rw [String.utf8EncodeChar, hnumber, if_pos (by omega), UInt8.ofNat_toNat]

namespace Item

theorem Clean.wellFormed_lexeme {i : Item} (h : i.Clean) : i.lexeme.WellFormed := by
  cases i with
  | quoted run =>
    have hchar : ∀ c : Char, (∀ b : UInt8, isPlain b = true → b.toNat ≠ c.toNat) →
        c ∉ run.map fun b => Char.ofNat b.toNat := by
      intro c hc hmem
      obtain ⟨b, hb, rfl⟩ := List.mem_map.mp hmem
      exact hc b (h b hb) (toNat_ofNat_byte b).symm
    exact ⟨hchar '"' fun b hb => (isPlain_bounds hb).2.1,
      hchar '\\' fun b hb => (isPlain_bounds hb).2.2⟩
  | byte b =>
    refine ⟨Nat.toDigits_ne_nil, fun d hd => Nat.isDigit_of_mem_toDigits (by decide) (by decide) hd,
      ?_⟩
    rw [Nat.ofDigitChars_ten_toDigits]
    exact b.toNat_lt

theorem Clean.bytes_lexeme {i : Item} (h : i.Clean) : i.lexeme.bytes = i.source := by
  cases i with
  | quoted run =>
    rw [lexeme, Lexeme.bytes, List.flatMap_map, source]
    calc run.flatMap (fun b => String.utf8EncodeChar (Char.ofNat b.toNat))
        = run.flatMap fun b => [b] :=
          List.flatMap_congr fun b hb => utf8EncodeChar_of_isPlain (h b hb)
      _ = run := by simp
  | byte b => rw [lexeme, Lexeme.bytes, Nat.ofDigitChars_ten_toDigits, UInt8.ofNat_toNat, source]

end Item

/-! ## The items of a byte string -/

section Items

variable {run bytes : List UInt8}

theorem clean_flushRun (hrun : ∀ b ∈ run, isPlain b = true) : ∀ i ∈ flushRun run, i.Clean := by
  intro i hi
  rw [flushRun] at hi
  split at hi
  · cases hi
  · obtain rfl := List.mem_singleton.mp hi
    exact fun b hb => hrun b (List.mem_reverse.mp hb)

theorem source_flushRun (run : List UInt8) : (flushRun run).flatMap Item.source = run.reverse := by
  rw [flushRun]
  split
  · next hempty => simp [List.isEmpty_iff.mp hempty]
  · simp [Item.source]

theorem clean_itemsFrom (hrun : ∀ b ∈ run, isPlain b = true) :
    ∀ i ∈ itemsFrom run bytes, i.Clean := by
  induction bytes generalizing run with
  | nil => exact clean_flushRun hrun
  | cons b bytes ih =>
    rw [itemsFrom]
    split
    · next hb => exact ih (List.forall_mem_cons.mpr ⟨hb, hrun⟩)
    · refine List.forall_mem_append.mpr ⟨clean_flushRun hrun, ?_⟩
      exact List.forall_mem_cons.mpr ⟨trivial, ih (by simp)⟩

/-- No byte is lost: those of the open run come first. -/
theorem source_itemsFrom (run bytes : List UInt8) :
    (itemsFrom run bytes).flatMap Item.source = run.reverse ++ bytes := by
  induction bytes generalizing run with
  | nil => rw [itemsFrom, source_flushRun, List.append_nil]
  | cons b bytes ih =>
    rw [itemsFrom]
    split
    · rw [ih, List.reverse_cons, List.append_assoc, List.singleton_append]
    · rw [List.flatMap_append, source_flushRun, List.flatMap_cons, ih]
      rfl

theorem clean_itemsOf (bytes : List UInt8) : ∀ i ∈ itemsOf bytes, i.Clean := by
  rw [itemsOf]
  exact List.forall_mem_append.mpr ⟨clean_itemsFrom (by simp), by simp [Item.Clean]⟩

theorem source_itemsOf (bytes : List UInt8) :
    (itemsOf bytes).flatMap Item.source = bytes ++ [0] := by
  rw [itemsOf, List.flatMap_append, source_itemsFrom]
  rfl

end Items

theorem reads_intercalate {items : List Item} (hne : items ≠ []) (hclean : ∀ i ∈ items, i.Clean) :
    Reads (items.map Item.lexeme) (String.intercalate ", " (items.map Item.text)).toList := by
  induction items with
  | nil => exact absurd rfl hne
  | cons i items ih =>
    have hi := (hclean i (by simp)).wellFormed_lexeme
    cases items with
    | nil =>
      rw [List.map_singleton, List.map_singleton, String.intercalate_singleton, Item.toList_text]
      exact .last hi 0
    | cons j items =>
      have hrest := ih (by simp) fun k hk => hclean k (by simp [hk])
      have hne : (j :: items).map Item.text ≠ [] := by simp
      rw [List.map_cons (f := Item.lexeme), List.map_cons (f := Item.text),
        String.intercalate_cons_of_ne_nil hne, String.toList_append, String.toList_append,
        Item.toList_text, List.append_assoc]
      exact .cons hi 0 0 1 hrest

theorem reads_dataText_iff {bytes : List UInt8} {ls : List Lexeme} :
    Reads ls (dataText bytes).toList ↔ ls = (itemsOf bytes).map Item.lexeme := by
  have hread : Reads ((itemsOf bytes).map Item.lexeme) (dataText bytes).toList :=
    reads_intercalate (by simp [itemsOf]) (clean_itemsOf bytes)
  constructor
  · intro h
    exact h.unique hread
  · rintro rfl
    exact hread

theorem bytes_itemsOf (bytes : List UInt8) :
    ((itemsOf bytes).map Item.lexeme).flatMap Lexeme.bytes = bytes ++ [0] := by
  rw [List.flatMap_map, ← source_itemsOf]
  exact List.flatMap_congr fun i hi => (clean_itemsOf bytes i hi).bytes_lexeme

/-- **Data items spell a byte string**: the text of a byte string can be read in exactly one way,
and what is read is the byte string and a zero byte.  So no two byte strings have one text. -/
theorem dataText_reads :
    (∀ bytes, ∃ ls, (∀ ls', Reads ls' (dataText bytes).toList ↔ ls' = ls) ∧
      ls.flatMap Lexeme.bytes = bytes ++ [0]) ∧
    Function.Injective dataText := by
  refine ⟨fun bytes => ⟨_, fun _ => reads_dataText_iff, bytes_itemsOf bytes⟩, ?_⟩
  intro bytes bytes' htext
  -- The reading of one text is a reading of the other.
  have hread : Reads ((itemsOf bytes).map Item.lexeme) (dataText bytes').toList :=
    htext ▸ reads_dataText_iff.mpr rfl
  have hbytes : bytes ++ [0] = bytes' ++ [0] := by
    rw [← bytes_itemsOf bytes, ← bytes_itemsOf bytes', reads_dataText_iff.mp hread]
  exact List.append_cancel_right hbytes

/-- Between quotes, what looks like two more items is none. -/
example : dataText [0x61, 0x2C, 0x20, 0x62, 0x20, 0x30, 0x0A, 0x22] =
    "b \"a, b 0\", b 10, b 34, b 0" := by
  decide

end Isel.Il
