import Isel.Flow.Listing
import Isel.Proofs.Quotation
import Isel.Proofs.Sections

/-!
# Reading listings

A listing shows a module by the names of its blocks (`Module.named`).  It can be read in one way
only, if names are of the kind that modules come with (`Listable`): rows without an indent are
headings, rows with an indent of two are blocks, and what stands in a row is told by its first
characters and by the blanks, colons and commas in it.  So a listing determines what it shows
(`named_eq_of_listing`).
-/

namespace Isel.Machine.Opcode

open Isel.Text

/-! ## Opcodes by their texts -/

theorem mem_assigned {op : Opcode} (h : op.isAssigned) : op ∈ assigned := by
  cases op with
  | unassigned b => cases h
  | _ => decide

theorem nodup_map_text : (assigned.map text).Nodup := by
  decide +kernel

theorem isUpper_of_mem_text {op : Opcode} (h : op.isAssigned) :
    ∀ c ∈ op.text.toList, c = '_' ∨ c.isUpper = true := by
  cases op with
  | unassigned b => cases h
  | _ => simp [text, info?, Info.accumulate, Info.combine]

theorem text_unassigned (b : BitVec 8) : text (.unassigned b) =
    if b = 0xFF then "UNKNOWN" else "Opcode(0x" ++ hex .upper 2 b.toNat ++ ")" := rfl

theorem text_ne_unassigned {op : Opcode} (h : op.isAssigned) (b : BitVec 8) :
    op.text ≠ text (.unassigned b) := by
  intro htext
  rw [text_unassigned] at htext
  split at htext
  · have hunknown : "UNKNOWN" ∉ assigned.map text := by decide +kernel
    exact hunknown (htext ▸ List.mem_map_of_mem (mem_assigned h))
  · have hp := isUpper_of_mem_text h 'p' (by rw [htext]; simp)
    exact absurd hp (by decide)

theorem text_unassigned_injective {b b' : BitVec 8}
    (h : text (.unassigned b) = text (.unassigned b')) : b = b' := by
  rw [text_unassigned, text_unassigned] at h
  split at h <;> split at h
  · exact ‹b = 0xFF›.trans ‹b' = 0xFF›.symm
  · exact absurd (congrArg (·.toList.head?) h) (by simp)
  · exact absurd (congrArg (·.toList.head?) h) (by simp)
  · rw [String.append_left_inj, String.append_right_inj] at h
    have hdigits := String.ofList_injective h
    have hnat : readHex .upper (hexChars .upper 2 b.toNat) =
        readHex .upper (hexChars .upper 2 b'.toNat) := congrArg _ hdigits
    rw [readHex_hexChars (by exact b.isLt), readHex_hexChars (by exact b'.isLt)] at hnat
    exact BitVec.eq_of_toNat_eq hnat

theorem eq_unassigned {op : Opcode} (h : ¬op.isAssigned = true) : ∃ b, op = .unassigned b := by
  cases op with
  | unassigned b => exact ⟨b, rfl⟩
  | _ => exact absurd rfl h

theorem text_injective : Function.Injective text := by
  intro op op' h
  by_cases hop : op.isAssigned = true <;> by_cases hop' : op'.isAssigned = true
  · exact List.inj_on_of_nodup_map nodup_map_text (mem_assigned hop) (mem_assigned hop') h
  · obtain ⟨b', rfl⟩ := eq_unassigned hop'
    exact absurd h (text_ne_unassigned hop b')
  · obtain ⟨b, rfl⟩ := eq_unassigned hop
    exact absurd h.symm (text_ne_unassigned hop' b)
  · obtain ⟨b, rfl⟩ := eq_unassigned hop
    obtain ⟨b', rfl⟩ := eq_unassigned hop'
    rw [text_unassigned_injective h]

theorem blankless_unassigned (b : BitVec 8) :
    ∀ c ∈ (text (.unassigned b)).toList, c ≠ ' ' ∧ c ≠ '\n' := by
  have hdigits : ∀ c ∈ hexChars .upper 2 b.toNat, c ≠ ' ' ∧ c ≠ '\n' := by
    intro c hc
    have hmem := mem_digits_of_mem_hexChars hc
    constructor <;> rintro rfl
    · exact absurd hmem (by decide)
    · exact absurd hmem (by decide)
  rw [text_unassigned]
  split
  · simp
  · simpa [hex, or_imp, forall_and] using hdigits

theorem blankless (op : Opcode) : ∀ c ∈ op.text.toList, c ≠ ' ' ∧ c ≠ '\n' := by
  intro c hc
  by_cases hop : op.isAssigned = true
  · constructor <;> rintro rfl
    · exact absurd (isUpper_of_mem_text hop _ hc) (by decide)
    · exact absurd (isUpper_of_mem_text hop _ hc) (by decide)
  · obtain ⟨b, rfl⟩ := eq_unassigned hop
    exact blankless_unassigned b c hc

end Isel.Machine.Opcode

namespace Isel.Flow

open Isel.Machine Isel.Proofs

/-! ## Modules by name -/

/-- An operand in which a block stands by its name. -/
inductive NamedOperand where
  | slot (s : Slot)
  | imm (v : Int)
  | literal (index : Nat)
  | block (name : Option String)
  deriving DecidableEq, Repr

structure NamedInstr where
  op : Opcode
  args : List NamedOperand
  deriving DecidableEq, Repr

structure NamedBlock where
  name : String
  instrs : List NamedInstr
  successors : List (Option String)
  deriving DecidableEq, Repr

/-- A module in which blocks stand by their names. -/
structure NamedModule where
  literals : List Literal
  globals : List NamedInstr
  functions : List (String × List NamedBlock)
  deriving DecidableEq, Repr

def Operand.named (names : Names) : Operand → NamedOperand
  | .slot s => .slot s
  | .imm v => .imm v
  | .literal index => .literal index
  | .block target => .block (target.map names)

def Instr.named (names : Names) (i : Instr) : NamedInstr :=
  ⟨i.op, i.args.map (Operand.named names)⟩

def Block.named (names : Names) (b : Block) : NamedBlock :=
  ⟨b.name, b.instrs.map (Instr.named names), b.successors.map (Option.map names)⟩

/-- What a listing shows of a module. -/
def Module.named (m : Module) : NamedModule where
  literals := m.literals
  globals := m.globals.map (Instr.named m.blockName)
  functions := m.functions.map fun f =>
    (f.name, (m.graph f.graph).blocks.map (Block.named m.blockName))

/-! ## Texts that are put together -/

section Texts

variable {α β γ δ : Type}

/-- A list is cut where elements of another kind begin. -/
theorem append_inj_of_kind {p : α → Bool} {a a' b b' : List α} (ha : ∀ x ∈ a, p x = true)
    (ha' : ∀ x ∈ a', p x = true) (hb : ∀ x ∈ b.head?, p x = false)
    (hb' : ∀ x ∈ b'.head?, p x = false) (h : a ++ b = a' ++ b') : a = a' ∧ b = b' := by
  have hfront : ∀ {a b : List α}, (∀ x ∈ a, p x = true) → (∀ x ∈ b.head?, p x = false) →
      (a ++ b).takeWhile p = a := by
    intro a b ha hb
    have hends : b.takeWhile p = [] := by
      cases b with
      | nil => rfl
      | cons x b => simp [hb x rfl]
    rw [List.takeWhile_append_of_pos ha, hends, List.append_nil]
  have heq := congrArg (List.takeWhile p) h
  rw [hfront ha hb, hfront ha' hb'] at heq
  exact ⟨heq, List.append_cancel_left (heq ▸ h)⟩

/-- A text is cut at the first place of a character. -/
theorem append_inj_of_char {c : Char} {a a' b b' : List Char} (ha : c ∉ a) (ha' : c ∉ a')
    (hb : ∀ x ∈ b.head?, x = c) (hb' : ∀ x ∈ b'.head?, x = c) (h : a ++ b = a' ++ b') :
    a = a' ∧ b = b' := by
  have hfree : ∀ {a : List Char}, c ∉ a → ∀ x ∈ a, (x != c) = true :=
    fun ha x hx => bne_iff_ne.mpr (ne_of_mem_of_not_mem hx ha)
  exact append_inj_of_kind (hfree ha) (hfree ha') (fun x hx => by simp [hb x hx])
    (fun x hx => by simp [hb' x hx]) h

theorem intercalate_cons (sep t : List α) (ts : List (List α)) :
    sep.intercalate (t :: ts) = t ++ ts.flatMap (sep ++ ·) := by
  induction ts generalizing t with
  | nil => simp
  | cons u ts ih => simp [List.intercalate_cons_cons, ih]

theorem head?_flatMap_comma (ts : List (List Char)) :
    ∀ x ∈ (ts.flatMap ([',', ' '] ++ ·)).head?, x = ',' := by
  cases ts with
  | nil => simp
  | cons t ts => simp

theorem flatMap_comma_injective : ∀ {ts ts' : List (List Char)}, (∀ t ∈ ts, ',' ∉ t) →
    (∀ t ∈ ts', ',' ∉ t) → ts.flatMap ([',', ' '] ++ ·) = ts'.flatMap ([',', ' '] ++ ·) →
    ts = ts' := by
  intro ts
  induction ts with
  | nil =>
    intro ts' _ _ h
    cases ts' with
    | nil => rfl
    | cons t' ts' => cases h
  | cons t ts ih =>
    intro ts' hts hts' h
    cases ts' with
    | nil => cases h
    | cons t' ts' =>
      rw [List.forall_mem_cons] at hts hts'
      rw [List.flatMap_cons, List.flatMap_cons, List.append_assoc, List.append_assoc,
        List.append_cancel_left_eq] at h
      obtain ⟨rfl, hrest⟩ := append_inj_of_char hts.1 hts'.1 (head?_flatMap_comma ts)
        (head?_flatMap_comma ts') h
      rw [ih hts.2 hts'.2 hrest]

/-- Texts with commas between them, behind a lead; nothing if there are none. -/
def enumeration (lead : List Char) (ts : List (List Char)) : List Char :=
  if ts.isEmpty then [] else lead ++ [',', ' '].intercalate ts

theorem head?_enumeration {c : Char} {lead : List Char} {ts : List (List Char)} :
    ∀ x ∈ (enumeration (c :: lead) ts).head?, x = c := by
  unfold enumeration
  split <;> simp

theorem enumeration_injective {c : Char} {lead : List Char} {ts ts' : List (List Char)}
    (hts : ∀ t ∈ ts, ',' ∉ t) (hts' : ∀ t ∈ ts', ',' ∉ t)
    (h : enumeration (c :: lead) ts = enumeration (c :: lead) ts') : ts = ts' := by
  cases ts with
  | nil =>
    cases ts' with
    | nil => rfl
    | cons t' ts' => cases h
  | cons t ts =>
    cases ts' with
    | nil => cases h
    | cons t' ts' =>
      have hlist : c :: lead ++ [',', ' '].intercalate (t :: ts) =
          c :: lead ++ [',', ' '].intercalate (t' :: ts') := h
      rw [List.append_cancel_left_eq, intercalate_cons, intercalate_cons] at hlist
      rw [List.forall_mem_cons] at hts hts'
      obtain ⟨rfl, hrest⟩ := append_inj_of_char hts.1 hts'.1 (head?_flatMap_comma ts)
        (head?_flatMap_comma ts') hlist
      rw [flatMap_comma_injective hts.2 hts'.2 hrest]

theorem not_mem_enumeration {c : Char} {lead : List Char} {ts : List (List Char)}
    (hlead : c ∉ lead) (hcomma : c ∉ [',', ' ']) (hts : ∀ t ∈ ts, c ∉ t) :
    c ∉ enumeration lead ts := by
  cases ts with
  | nil => exact List.not_mem_nil
  | cons t ts =>
    have hlist : enumeration lead (t :: ts) = lead ++ (t ++ ts.flatMap ([',', ' '] ++ ·)) := by
      rw [← intercalate_cons]
      rfl
    rw [List.forall_mem_cons] at hts
    rw [hlist, List.mem_append, List.mem_append, List.mem_flatMap]
    rintro (h | h | ⟨u, hu, h⟩)
    · exact hlead h
    · exact hts.1 h
    · exact (List.mem_append.mp h).elim hcomma (hts.2 u hu)

/-- Elements that look the same are alike, so lists that look the same are. -/
theorem map_eq_map_of_shown {f : α → γ} {f' : β → γ} {g : α → δ} {g' : β → δ} :
    ∀ {xs : List α} {ys : List β}, (∀ x ∈ xs, ∀ y ∈ ys, f x = f' y → g x = g' y) →
    xs.map f = ys.map f' → xs.map g = ys.map g' := by
  intro xs
  induction xs with
  | nil =>
    intro ys _ h
    cases ys with
    | nil => rfl
    | cons y ys => cases h
  | cons x xs ih =>
    intro ys hshown h
    cases ys with
    | nil => cases h
    | cons y ys =>
      rw [List.map_cons, List.map_cons, List.cons.injEq] at h
      have hrest : ∀ x ∈ xs, ∀ y ∈ ys, f x = f' y → g x = g' y := fun x hx y hy =>
        hshown x (List.mem_cons_of_mem _ hx) y (List.mem_cons_of_mem _ hy)
      rw [List.map_cons, List.map_cons, hshown x List.mem_cons_self y List.mem_cons_self h.1,
        ih hrest h.2]

/-- Groups of rows are read back if their first rows can be told from the others. -/
theorem flatMap_groups_injective {p : α → Bool} : ∀ {gs gs' : List (α × List α)},
    (∀ g ∈ gs, p g.1 = false ∧ ∀ x ∈ g.2, p x = true) →
    (∀ g ∈ gs', p g.1 = false ∧ ∀ x ∈ g.2, p x = true) →
    gs.flatMap (fun g => g.1 :: g.2) = gs'.flatMap (fun g => g.1 :: g.2) → gs = gs' := by
  have hends : ∀ {gs : List (α × List α)}, (∀ g ∈ gs, p g.1 = false ∧ ∀ x ∈ g.2, p x = true) →
      ∀ x ∈ (gs.flatMap fun g => g.1 :: g.2).head?, p x = false := by
    intro gs hgs x hx
    cases gs with
    | nil => cases hx
    | cons g gs => exact Option.some.inj hx ▸ (hgs g List.mem_cons_self).1
  intro gs
  induction gs with
  | nil =>
    intro gs' _ _ h
    cases gs' with
    | nil => rfl
    | cons g gs' => cases h
  | cons g gs ih =>
    intro gs' hgs hgs' h
    cases gs' with
    | nil => cases h
    | cons g' gs' =>
      rw [List.flatMap_cons, List.flatMap_cons, List.cons_append, List.cons_append,
        List.cons.injEq] at h
      rw [List.forall_mem_cons] at hgs hgs'
      obtain ⟨hrows, hrest⟩ := append_inj_of_kind hgs.1.2 hgs'.1.2 (hends hgs.2) (hends hgs'.2) h.2
      rw [ih hgs.2 hgs'.2 hrest, Prod.ext h.1 hrows]

end Texts

/-! ## Rows -/

section Rows

variable {names names' : Names}

/-- Blocks have names that were drawn; what is no block has none. -/
def Labelled (names : Names) : Prop := ∀ r, names r = "" ∨ ∃ n, names r = generatedName n

/-- What ends the parts of a row, and the rows. -/
def separators : List Char := [',', ':', '\n']

theorem not_mem_append {c : Char} {a b : String} :
    c ∉ (a ++ b).toList ↔ c ∉ a.toList ∧ c ∉ b.toList := by
  rw [String.toList_append, List.mem_append, not_or]

theorem not_mem_toString_nat {c : Char} (hc : c ∈ separators) (n : Nat) :
    c ∉ (toString n).toList :=
  Il.not_mem_toString_nat ((by simp [separators] : ∀ c ∈ separators, c.isDigit = false) c hc) n

theorem not_mem_toString_int {c : Char} (hc : c ∈ separators) (v : Int) :
    c ∉ (toString v).toList := by
  cases v with
  | ofNat n => exact not_mem_toString_nat hc n
  | negSucc n =>
    have hsign : ∀ c ∈ separators, c ∉ "-".toList := by simp [separators]
    exact not_mem_append.mpr ⟨hsign c hc, not_mem_toString_nat hc (n + 1)⟩

theorem not_mem_generatedName {c : Char} (hc : c ∈ separators) (n : Nat) :
    c ∉ (generatedName n).toList := by
  have hword : ∀ c ∈ separators, c ∉ "Block".toList := by simp [separators]
  exact not_mem_append.mpr ⟨hword c hc, not_mem_toString_nat hc n⟩

theorem not_mem_targetText {c : Char} (h : Labelled names) (hc : c ∈ separators)
    (t : Option BlockRef) : c ∉ (targetText names t).toList := by
  cases t with
  | none => exact (by simp [separators] : ∀ c ∈ separators, c ∉ "<nil>".toList) c hc
  | some r =>
    rcases h r with hr | ⟨n, hr⟩
    · simp [targetText, hr]
    · simpa [targetText, hr] using not_mem_generatedName hc n

theorem head?_targetText (h : Labelled names) (t : Option BlockRef) :
    (targetText names t).toList.head? ∈ [none, some '<', some 'B'] := by
  cases t with
  | none => simp [targetText]
  | some r => rcases h r with hr | ⟨n, hr⟩ <;> simp [targetText, hr, generatedName]

theorem map_eq_of_targetText (h : Labelled names) (h' : Labelled names') {t t' : Option BlockRef}
    (htext : targetText names t = targetText names' t') : t.map names = t'.map names' := by
  have hsome : ∀ {names : Names}, Labelled names → ∀ r, names r ≠ "<nil>" := by
    intro names h r hr
    have hhead := congrArg (·.toList.head?) hr
    rcases h r with hr | ⟨n, hr⟩ <;> simp [hr, generatedName] at hhead
  cases t with
  | none =>
    cases t' with
    | none => rfl
    | some r' => exact absurd htext.symm (hsome h' r')
  | some r =>
    cases t' with
    | none => exact absurd htext (hsome h r)
    | some r' => exact congrArg some htext

namespace Operand

theorem not_mem_text {c : Char} (h : Labelled names) (hc : c ∈ separators) (x : Operand) :
    c ∉ (x.text names).toList := by
  have hmarks : ∀ c ∈ separators, c ∉ "s".toList ∧ c ∉ "#".toList ∧ c ∉ "m".toList := by
    simp [separators]
  obtain ⟨hs, hnumber, hm⟩ := hmarks c hc
  cases x with
  | slot s => exact not_mem_append.mpr ⟨hs, not_mem_toString_nat hc s⟩
  | imm v => exact not_mem_append.mpr ⟨hnumber, not_mem_toString_int hc v⟩
  | literal index => exact not_mem_append.mpr ⟨hm, not_mem_toString_nat hc index⟩
  | block t => exact not_mem_targetText h hc t

theorem toString_int_injective {v w : Int} (h : toString v = toString w) : v = w := by
  have hsign : ∀ m n : Nat, toString m ≠ "-" ++ toString n := by
    intro m n heq
    have hmem : '-' ∈ (toString m).toList := by simp [heq]
    exact Il.not_mem_toString_nat (by decide) m hmem
  cases v with
  | ofNat m =>
    cases w with
    | ofNat n => exact congrArg Int.ofNat (Il.toString_nat_injective h)
    | negSucc n => exact absurd h (hsign m (n + 1))
  | negSucc m =>
    cases w with
    | ofNat n => exact absurd h.symm (hsign n (m + 1))
    | negSucc n =>
      have hnext := Il.toString_nat_injective ((String.append_right_inj "-").mp h)
      exact congrArg Int.negSucc (Nat.succ.inj hnext)

/-- The first character tells the kind of an operand. -/
theorem named_eq_of_text (h : Labelled names) (h' : Labelled names') {x x' : Operand}
    (htext : x.text names = x'.text names') : x.named names = x'.named names' := by
  have hhead := congrArg (·.toList.head?) htext
  cases x <;> cases x'
  case slot.slot s s' =>
    exact congrArg NamedOperand.slot
      (Il.toString_nat_injective ((String.append_right_inj _).mp htext))
  case imm.imm v v' =>
    exact congrArg NamedOperand.imm
      (toString_int_injective ((String.append_right_inj _).mp htext))
  case literal.literal n n' =>
    exact congrArg NamedOperand.literal
      (Il.toString_nat_injective ((String.append_right_inj _).mp htext))
  case block.block t t' => exact congrArg NamedOperand.block (map_eq_of_targetText h h' htext)
  case block.slot t _ | block.imm t _ | block.literal t _ =>
    have hmark := head?_targetText h t
    rw [show (targetText names t).toList.head? = _ from hhead] at hmark
    simp [text] at hmark
  case slot.block _ t | imm.block _ t | literal.block _ t =>
    have hmark := head?_targetText h' t
    rw [show (targetText names' t).toList.head? = _ from hhead.symm] at hmark
    simp [text] at hmark
  all_goals simp [text] at hhead

end Operand

namespace Instr

theorem toList_text (names : Names) (i : Instr) : (i.text names).toList =
    i.op.text.toList ++ enumeration [' '] (i.args.map fun x => (x.text names).toList) := by
  unfold text enumeration
  cases i.args with
  | nil => simp
  | cons x args => simp [Function.comp_def]

theorem named_eq_of_text (h : Labelled names) (h' : Labelled names') {i i' : Instr}
    (htext : i.text names = i'.text names') : i.named names = i'.named names' := by
  have hlist := congrArg String.toList htext
  rw [toList_text, toList_text] at hlist
  obtain ⟨hop, hargs⟩ := append_inj_of_char (fun hmem => (i.op.blankless _ hmem).1 rfl)
    (fun hmem => (i'.op.blankless _ hmem).1 rfl) head?_enumeration head?_enumeration hlist
  have htexts := enumeration_injective
    (List.forall_mem_map.mpr fun x _ => Operand.not_mem_text h (by decide) x)
    (List.forall_mem_map.mpr fun x _ => Operand.not_mem_text h' (by decide) x) hargs
  unfold named
  rw [Opcode.text_injective (String.toList_injective hop), map_eq_map_of_shown
    (fun x _ x' _ hx => Operand.named_eq_of_text h h' (String.toList_injective hx)) htexts]

end Instr

end Rows

/-! ## Modules -/

/-- A blank stands at this place of the row. -/
def indented (place : Nat) (row : String) : Bool := row.toList[place]? == some ' '

/-- Rows with their heading; no heading without rows. -/
def rowsUnder (heading : String) (rows : List String) : List (String × List String) :=
  if rows.isEmpty then [] else [(heading, rows)]

theorem underHeading_eq (heading : String) (rows : List String) :
    underHeading heading rows = (rowsUnder heading rows).flatMap fun rows => rows.1 :: rows.2 := by
  cases rows <;> simp [underHeading, rowsUnder]

theorem rowsUnder_injective (heading : String) : Function.Injective (rowsUnder heading) := by
  intro rows rows' h
  cases rows with
  | nil =>
    cases rows' with
    | nil => rfl
    | cons row' rows' => cases h
  | cons row rows =>
    cases rows' with
    | nil => cases h
    | cons row' rows' => exact (Prod.mk.inj (List.cons.inj h).1).2

theorem head?_of_mem_rowsUnder {heading : String} {rows : List String} :
    ∀ group ∈ rowsUnder heading rows, group.1.toList.head? = heading.toList.head? := by
  intro group h
  unfold rowsUnder at h
  split at h
  · cases h
  · rw [List.mem_singleton.mp h]

/-- The first character of the headings tells a part of a listing from what follows. -/
theorem append_inj_of_heading {c : Char} {a a' b b' : List (String × List String)}
    (ha : ∀ group ∈ a, group.1.toList.head? = some c)
    (ha' : ∀ group ∈ a', group.1.toList.head? = some c)
    (hb : ∀ group ∈ b, group.1.toList.head? ≠ some c)
    (hb' : ∀ group ∈ b', group.1.toList.head? ≠ some c) (h : a ++ b = a' ++ b') :
    a = a' ∧ b = b' :=
  append_inj_of_kind (p := fun group => group.1.toList.head? == some c)
    (fun group hgroup => beq_iff_eq.mpr (ha group hgroup))
    (fun group hgroup => beq_iff_eq.mpr (ha' group hgroup))
    (fun group hgroup => beq_eq_false_iff_ne.mpr (hb group (List.mem_of_head? hgroup)))
    (fun group hgroup => beq_eq_false_iff_ne.mpr (hb' group (List.mem_of_head? hgroup))) h

theorem parts_injective {a a' b b' : List String} {fns fns' : List (String × List String)}
    (hfns : ∀ group ∈ fns, group.1.toList.head? = some 'f')
    (hfns' : ∀ group ∈ fns', group.1.toList.head? = some 'f')
    (h : rowsUnder "literals:" a ++ (rowsUnder "globals:" b ++ fns) =
      rowsUnder "literals:" a' ++ (rowsUnder "globals:" b' ++ fns')) :
    a = a' ∧ b = b' ∧ fns = fns' := by
  have hafter : ∀ {b : List String} {fns : List (String × List String)},
      (∀ group ∈ fns, group.1.toList.head? = some 'f') →
      ∀ group ∈ rowsUnder "globals:" b ++ fns, group.1.toList.head? ≠ some 'l' := by
    intro b fns hfns group hgroup
    rcases List.mem_append.mp hgroup with hmem | hmem
    · rw [head?_of_mem_rowsUnder group hmem]
      decide
    · rw [hfns group hmem]
      decide
  have hother : ∀ {fns : List (String × List String)},
      (∀ group ∈ fns, group.1.toList.head? = some 'f') →
      ∀ group ∈ fns, group.1.toList.head? ≠ some 'g' :=
    fun hfns group hmem => by rw [hfns group hmem]; decide
  obtain ⟨ha, hrest⟩ := append_inj_of_heading (c := 'l') head?_of_mem_rowsUnder
    head?_of_mem_rowsUnder (hafter hfns) (hafter hfns') h
  obtain ⟨hb, hfns⟩ := append_inj_of_heading (c := 'g') head?_of_mem_rowsUnder
    head?_of_mem_rowsUnder (hother hfns) (hother hfns') hrest
  exact ⟨rowsUnder_injective _ ha, rowsUnder_injective _ hb, hfns⟩

/-- The names of the module are of the kind that modules come with: those of blocks were drawn,
those of literals go by their places as their slots do, and no function name holds a line break. -/
structure Listable (m : Module) : Prop extends Il.PlainNames m where
  drawn : ∀ g, ∀ b ∈ (m.graph g).blocks, ∃ n, b.name = generatedName n
  placed : m.literals.map Literal.name = (List.range m.literals.length).map Select.literalName
  slots : ∀ k l, m.literal? k = some l → l.slot = k

section Modules

variable {m m' : Module}

theorem Listable.labelled (hm : Listable m) : Labelled m.blockName := by
  intro r
  unfold Module.blockName
  cases hb : m.block? r with
  | none => exact .inl rfl
  | some b => exact .inr (hm.drawn r.graph b (List.mem_of_getElem? hb))

namespace Module

theorem toList_blockHeading (m : Module) (b : Block) : (m.blockHeading b).toList =
    ' ' :: ' ' :: (b.name.toList ++ ':' :: enumeration [' ', '-', '>', ' ']
      (b.successors.map fun t => (targetText m.blockName t).toList)) := by
  unfold blockHeading enumeration
  cases b.successors with
  | nil => simp
  | cons t ts => simp [Function.comp_def]

theorem named_eq_of_blockLines (hm : Listable m) (hm' : Listable m') {g g' : Nat} {b b' : Block}
    (hb : b ∈ (m.graph g).blocks) (hb' : b' ∈ (m'.graph g').blocks)
    (hheading : m.blockHeading b = m'.blockHeading b')
    (hinstrs : b.instrs.map m.instrLine = b'.instrs.map m'.instrLine) :
    b.named m.blockName = b'.named m'.blockName := by
  have hcolon : ∀ {m : Module} {g : Nat} {b : Block}, Listable m → b ∈ (m.graph g).blocks →
      ':' ∉ b.name.toList := by
    intro m g b hm hb
    obtain ⟨n, hn⟩ := hm.drawn g b hb
    exact hn ▸ not_mem_generatedName (by decide) n
  have hlist := congrArg String.toList hheading
  rw [toList_blockHeading, toList_blockHeading, List.cons.injEq, List.cons.injEq] at hlist
  obtain ⟨hname, hsuccessors⟩ := append_inj_of_char (hcolon hm hb) (hcolon hm' hb') (by simp)
    (by simp) hlist.2.2
  have htexts := enumeration_injective
    (List.forall_mem_map.mpr fun t _ => not_mem_targetText hm.labelled (by decide) t)
    (List.forall_mem_map.mpr fun t _ => not_mem_targetText hm'.labelled (by decide) t)
    (List.cons.inj hsuccessors).2
  unfold Block.named
  rw [String.toList_injective hname,
    map_eq_map_of_shown (fun i _ i' _ hi => Instr.named_eq_of_text hm.labelled hm'.labelled
      ((String.append_right_inj _).mp hi)) hinstrs,
    map_eq_map_of_shown (fun t _ t' _ ht => map_eq_of_targetText hm.labelled hm'.labelled
      (String.toList_injective ht)) htexts]

def blockRows (m : Module) (b : Block) : String × List String :=
  (m.blockHeading b, b.instrs.map m.instrLine)

/-- The third character tells the heading of a block from its instructions. -/
theorem indented_blockRows (hm : Listable m) {g : Nat} :
    ∀ rows ∈ (m.graph g).blocks.map m.blockRows,
      indented 2 rows.1 = false ∧ ∀ row ∈ rows.2, indented 2 row = true := by
  rw [List.forall_mem_map]
  intro b hb
  obtain ⟨n, hn⟩ := hm.drawn g b hb
  refine ⟨?_, List.forall_mem_map.mpr fun i _ => by simp [indented, instrLine]⟩
  show indented 2 (m.blockHeading b) = false
  rw [indented, toList_blockHeading, hn]
  simp [generatedName]

theorem named_eq_of_blocks (hm : Listable m) (hm' : Listable m') {g g' : Nat}
    (h : (m.graph g).blocks.flatMap m.blockLines = (m'.graph g').blocks.flatMap m'.blockLines) :
    (m.graph g).blocks.map (Block.named m.blockName) =
      (m'.graph g').blocks.map (Block.named m'.blockName) := by
  have hgroups : ∀ (m : Module) (g : Nat), (m.graph g).blocks.flatMap m.blockLines =
      ((m.graph g).blocks.map m.blockRows).flatMap fun rows => rows.1 :: rows.2 :=
    fun m g => by rw [List.flatMap_map]; rfl
  rw [hgroups, hgroups] at h
  have hrows := flatMap_groups_injective (indented_blockRows hm) (indented_blockRows hm') h
  refine map_eq_map_of_shown (fun b hb b' hb' hshown => ?_) hrows
  rw [blockRows, blockRows, Prod.mk.injEq] at hshown
  exact named_eq_of_blockLines hm hm' hb hb' hshown.1 hshown.2

theorem named_eq_of_literalLines (hm : Listable m) (hm' : Listable m')
    (h : m.literals.map literalLine = m'.literals.map literalLine) :
    m.literals = m'.literals := by
  have hname : ∀ {m : Module} {i : Nat} {l : Literal}, Listable m → m.literals[i]? = some l →
      l.name = Select.literalName i := by
    intro m i l hm hl
    have hplace := congrArg (·[i]?) hm.placed
    obtain ⟨hlt, rfl⟩ := List.getElem?_eq_some_iff.mp hl
    simpa [hlt] using hplace
  refine List.ext_getElem? fun i => ?_
  have hrow := congrArg (·[i]?) h
  simp only [List.getElem?_map] at hrow
  cases hl : m.literals[i]? with
  | none =>
    rw [hl] at hrow
    rw [Option.map_eq_none_iff.mp hrow.symm]
  | some l =>
    rw [hl] at hrow
    obtain ⟨l', hl', hline⟩ := Option.map_eq_some_iff.mp hrow.symm
    unfold literalLine at hline
    rw [hm.slots i l hl, hm'.slots i l' hl', hname hm hl, hname hm' hl',
      String.append_right_inj] at hline
    rw [hl', Option.some.injEq, Literal.mk.injEq, hm.slots i l hl, hm'.slots i l' hl',
      hname hm hl, hname hm' hl']
    exact ⟨rfl, rfl, (Text.quote_injective hline).symm⟩

def listingRows (m : Module) : List (String × List String) :=
  rowsUnder "literals:" (m.literals.map literalLine) ++
    (rowsUnder "globals:" (m.globals.map m.instrLine) ++
      m.functions.map fun f =>
        ("fn " ++ f.name ++ ":", (m.graph f.graph).blocks.flatMap m.blockLines))

theorem listingLines_eq (m : Module) :
    m.listingLines = m.listingRows.flatMap fun rows => rows.1 :: rows.2 := by
  rw [listingLines, listingRows, List.flatMap_append, List.flatMap_append, List.flatMap_map,
    ← underHeading_eq, ← underHeading_eq, List.append_assoc]
  rfl

theorem forall_listingRows {P Q : String → Prop} (hliterals : P "literals:")
    (hglobals : P "globals:") (hfn : ∀ f ∈ m.functions, P ("fn " ++ f.name ++ ":"))
    (hliteral : ∀ l ∈ m.literals, Q (literalLine l)) (hinstr : ∀ i, Q (m.instrLine i))
    (hheading : ∀ g, ∀ b ∈ (m.graph g).blocks, Q (m.blockHeading b)) :
    ∀ rows ∈ m.listingRows, P rows.1 ∧ ∀ row ∈ rows.2, Q row := by
  have hunder : ∀ {heading : String} {rows : List String}, P heading → (∀ row ∈ rows, Q row) →
      ∀ group ∈ rowsUnder heading rows, P group.1 ∧ ∀ row ∈ group.2, Q row := by
    intro heading rows hp hrows group hgroup
    unfold rowsUnder at hgroup
    split at hgroup
    · cases hgroup
    · rw [List.mem_singleton.mp hgroup]
      exact ⟨hp, hrows⟩
  intro rows hrows
  rw [listingRows, List.mem_append, List.mem_append] at hrows
  rcases hrows with hrows | hrows | hrows
  · exact hunder hliterals (List.forall_mem_map.mpr hliteral) rows hrows
  · exact hunder hglobals (List.forall_mem_map.mpr fun i _ => hinstr i) rows hrows
  · obtain ⟨f, hf, rfl⟩ := List.mem_map.mp hrows
    refine ⟨hfn f hf, fun row hrow => ?_⟩
    obtain ⟨b, hb, hrow⟩ := List.mem_flatMap.mp hrow
    rcases List.mem_cons.mp hrow with rfl | hrow
    · exact hheading f.graph b hb
    · obtain ⟨i, -, rfl⟩ := List.mem_map.mp hrow
      exact hinstr i

theorem indented_listingRows (m : Module) : ∀ rows ∈ m.listingRows,
    indented 0 rows.1 = false ∧ ∀ row ∈ rows.2, indented 0 row = true := by
  refine forall_listingRows (P := fun heading => indented 0 heading = false)
    (Q := fun row => indented 0 row = true) (by decide) (by decide) (fun f _ => by simp [indented])
    (fun l _ => by simp [indented, literalLine]) (fun i => by simp [indented, instrLine])
    fun g b _ => ?_
  rw [indented, toList_blockHeading]
  rfl

theorem plain_instrLine (hm : Listable m) (i : Instr) : Il.Plain (m.instrLine i) := by
  refine Il.plain_append.mpr ⟨by decide, ?_⟩
  rw [Il.Plain, Instr.toList_text, List.mem_append, not_or]
  refine ⟨fun hmem => (i.op.blankless _ hmem).2 rfl, ?_⟩
  exact not_mem_enumeration (by decide) (by decide)
    (List.forall_mem_map.mpr fun x _ => Operand.not_mem_text hm.labelled (by decide) x)

theorem plain_blockHeading (hm : Listable m) {g : Nat} {b : Block}
    (hb : b ∈ (m.graph g).blocks) : Il.Plain (m.blockHeading b) := by
  obtain ⟨n, hn⟩ := hm.drawn g b hb
  have hname : '\n' ∉ b.name.toList := hn ▸ not_mem_generatedName (by decide) n
  have hsuccessors : '\n' ∉ enumeration [' ', '-', '>', ' ']
      (b.successors.map fun t => (targetText m.blockName t).toList) :=
    not_mem_enumeration (by decide) (by decide)
      (List.forall_mem_map.mpr fun t _ => not_mem_targetText hm.labelled (by decide) t)
  rw [Il.Plain, toList_blockHeading]
  simp [hname, hsuccessors]

theorem plain_literalLine {l : Literal} (hl : Il.Plain l.name) : Il.Plain (literalLine l) := by
  have hquote : Il.Plain (Text.quote l.bytes) := Text.newline_not_mem_quote l.bytes
  have hwords : Il.Plain "    m" ∧ Il.Plain " " ∧ Il.Plain " = " := by decide
  simp only [literalLine, Il.plain_append]
  exact ⟨⟨⟨⟨⟨hwords.1, Il.plain_toString_nat l.slot⟩, hwords.2.1⟩, hl⟩, hwords.2.2⟩, hquote⟩

theorem plain_listingRows (hm : Listable m) : ∀ rows ∈ m.listingRows,
    Il.Plain rows.1 ∧ ∀ row ∈ rows.2, Il.Plain row := by
  have hwords : Il.Plain "fn " ∧ Il.Plain ":" := by decide
  exact forall_listingRows (by decide) (by decide)
    (fun f hf => by simp [hwords, hm.functions f hf])
    (fun l hl => plain_literalLine (hm.literals l hl)) (plain_instrLine hm)
    fun g b hb => plain_blockHeading hm hb

theorem listingLines_eq_of_listing (hm : Listable m) (hm' : Listable m')
    (h : m.listing = m'.listing) : m.listingLines = m'.listingLines := by
  have hsplit : ∀ {m : Module}, Listable m →
      m.listing.toList.splitOn '\n' = m.listingLines.map String.toList ++ [[]] := by
    intro m hm
    have hplain : ∀ row ∈ m.listingLines.map String.toList, '\n' ∉ row := by
      rw [List.forall_mem_map, listingLines_eq]
      intro row hrow
      obtain ⟨rows, hrows, hrow⟩ := List.mem_flatMap.mp hrow
      obtain ⟨hheading, hunder⟩ := plain_listingRows hm rows hrows
      exact List.forall_mem_cons.mpr ⟨hheading, hunder⟩ row hrow
    rw [← Il.splitOn_rows hplain, listing, String.toList_join, List.flatMap_map, List.flatMap_map]
    simp
  have hrows := congrArg (fun text : String => text.toList.splitOn '\n') h
  rw [hsplit hm, hsplit hm', List.append_cancel_right_eq] at hrows
  exact List.map_injective_iff.mpr (fun _ _ => String.toList_injective) hrows

/-- **A listing determines what it shows.** -/
theorem named_eq_of_listing (hm : Listable m) (hm' : Listable m') (h : m.listing = m'.listing) :
    m.named = m'.named := by
  have hfunctions : ∀ m : Module, ∀ group ∈ m.functions.map fun f =>
      ("fn " ++ f.name ++ ":", (m.graph f.graph).blocks.flatMap m.blockLines),
      group.1.toList.head? = some 'f' := by
    intro m
    rw [List.forall_mem_map]
    exact fun f _ => by simp
  have hlines := listingLines_eq_of_listing hm hm' h
  rw [listingLines_eq, listingLines_eq] at hlines
  have hrows := flatMap_groups_injective (indented_listingRows m) (indented_listingRows m') hlines
  obtain ⟨hliterals, hglobals, hfns⟩ := parts_injective (hfunctions m) (hfunctions m') hrows
  unfold named
  rw [named_eq_of_literalLines hm hm' hliterals, map_eq_map_of_shown (fun i _ i' _ hi =>
    Instr.named_eq_of_text hm.labelled hm'.labelled ((String.append_right_inj _).mp hi)) hglobals,
    map_eq_map_of_shown (fun f _ f' _ hf => ?_) hfns]
  rw [Prod.mk.injEq, String.append_left_inj, String.append_right_inj] at hf
  rw [hf.1, named_eq_of_blocks hm hm' hf.2]

end Module

end Modules

end Isel.Flow
