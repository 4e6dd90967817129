import Mathlib.Data.List.Forall2
import Isel.Il.OfModule

/-!
# What a translation is made of

A module that has a text has it part by part: the text of a function goes block by block, and
the lines of a block instruction by instruction, up to the one that ends its text.  The lemmas
below take a translation apart along these lines, so that facts about texts never open it
again.
-/

namespace Isel.Proofs

theorem except_bind_eq_ok {ε α β : Type} {x : Except ε α} {f : α → Except ε β} {b : β} :
    x >>= f = .ok b ↔ ∃ a, x = .ok a ∧ f a = .ok b := by
  cases x with
  | error e =>
    constructor
    · intro h
      cases h
    · rintro ⟨a, h, -⟩
      cases h
  | ok a =>
    constructor
    · intro h
      exact ⟨a, rfl, h⟩
    · rintro ⟨a', h, hf⟩
      cases h
      exact hf

end Isel.Proofs

namespace Isel.Il

open Isel.Flow Isel.Proofs

variable {m : Module} {fn : String} {flag : Nat} {i : Instr} {rest : List Instr}

/-! ## Instructions -/

theorem def?_eq_some {dst : Slot} (h : i.def? = some dst) :
    i.op.defines = true ∧ ∃ args, i.args = .slot dst :: args := by
  rw [Instr.def?] at h
  split at h
  · next hdef =>
    refine ⟨hdef, ?_⟩
    cases hargs : i.args with
    | nil => simp [hargs] at h
    | cons x args =>
      cases x with
      | slot s =>
        simp only [hargs, List.head?_cons, Option.bind_some, Operand.slot?] at h
        cases h
        exact ⟨args, rfl⟩
      | _ => simp [hargs, Operand.slot?] at h
  · cases h

/-- What an instruction gives to the slot it defines: a copy, a complement, the negative, or the
outcome of an operation, either with the slot itself or with two other operands. -/
inductive Computes (m : Module) (dst : Slot) : Instr → Rhs → Prop
  | copy {op : Machine.Opcode} {y x : Operand} {more : List Operand} : op = .loadImm ∨ op = .mov →
      Computes m dst ⟨op, y :: x :: more⟩ (.copy (valueOf m x))
  | not {y x : Operand} {more : List Operand} :
      Computes m dst ⟨.not, y :: x :: more⟩ (.bin .xor (valueOf m x) (.int (-1)))
  | neg {y x : Operand} {more : List Operand} :
      Computes m dst ⟨.neg, y :: x :: more⟩ (.neg (valueOf m x))
  | accumulate {op : Machine.Opcode} {bin : BinOp} {y x : Operand} {more : List Operand} :
      binOp? op = some bin → op.isInplace = true →
      Computes m dst ⟨op, y :: x :: more⟩ (.bin bin (.temp (.slot dst)) (valueOf m x))
  | combine {op : Machine.Opcode} {bin : BinOp} {y x z : Operand} {more : List Operand} :
      binOp? op = some bin → op.isInplace = false →
      Computes m dst ⟨op, y :: x :: z :: more⟩ (.bin bin (valueOf m x) (valueOf m z))

theorem rhsOf_of_binOp? {dst : Slot} {bin : BinOp} (h : binOp? i.op = some bin) :
    rhsOf m fn dst i =
      if i.op.isInplace then
        match i.args with
        | _ :: x :: _ => .ok (.bin bin (.temp (.slot dst)) (valueOf m x))
        | _ => .error .malformed
      else
        match i.args with
        | _ :: x :: y :: _ => .ok (.bin bin (valueOf m x) (valueOf m y))
        | _ => .error .malformed := by
  obtain ⟨op, args⟩ := i
  cases op <;> cases h <;> rfl

theorem rhsOf_eq_ok {dst : Slot} {rhs : Rhs} :
    rhsOf m fn dst i = .ok rhs ↔ Computes m dst i rhs := by
  constructor
  · intro h
    cases hbin : binOp? i.op with
    | some bin =>
      rw [rhsOf_of_binOp? hbin] at h
      obtain ⟨op, args⟩ := i
      split at h
      · next hin =>
        split at h
        · next hargs =>
          cases h
          cases hargs
          exact .accumulate hbin hin
        · cases h
      · next hin =>
        split at h
        · next hargs =>
          cases h
          cases hargs
          exact .combine hbin (Bool.eq_false_iff.mpr hin)
        · cases h
    | none =>
      obtain ⟨op, args⟩ := i
      rw [rhsOf.eq_def] at h
      dsimp only at h hbin
      split at h
      · cases h
        exact .copy (.inl rfl)
      · cases h
        exact .copy (.inr rfl)
      · cases h
        exact .not
      · cases h
        exact .neg
      · cases h
      · cases h
      · cases h
      · cases h
      · rw [hbin] at h
        cases h
  · rintro (hop | _ | _ | ⟨hbin, hin⟩ | ⟨hbin, hin⟩)
    · rcases hop with rfl | rfl <;> rfl
    · rfl
    · rfl
    · rw [rhsOf_of_binOp? hbin, if_pos hin]
    · rw [rhsOf_of_binOp? hbin, if_neg (by simp [hin])]

theorem effectLines_eq_ok {lines : List Line} (h : effectLines m fn i = .ok lines) :
    i.op = .noOp ∧ lines = [] ∨
      i.op = .call ∧ (∃ f, m.functionAt? i.target? = some f ∧ lines = [.call f.name]) ∨
      ∃ dst rhs, i.def? = some dst ∧ Computes m dst i rhs ∧
        lines = [.assign (.slot dst) rhs] := by
  rw [effectLines] at h
  split at h
  · next hop =>
    cases h
    exact .inl ⟨hop, rfl⟩
  · next hop =>
    cases hf : m.functionAt? i.target? with
    | none => simp [hf] at h
    | some f =>
      simp only [hf] at h
      cases h
      exact .inr (.inl ⟨hop, f, rfl, rfl⟩)
  · cases hdst : i.def? with
    | none => simp [hdst] at h
    | some dst =>
      simp only [hdst] at h
      obtain ⟨rhs, hrhs, h⟩ := except_bind_eq_ok.mp h
      cases h
      exact .inr (.inr ⟨dst, rhs, rfl, rhsOf_eq_ok.mp hrhs, rfl⟩)

theorem effectLines_of_computes {dst : Slot} {rhs : Rhs} (hdst : i.def? = some dst)
    (h : Computes m dst i rhs) : effectLines m fn i = .ok [.assign (.slot dst) rhs] := by
  have hdef := (def?_eq_some hdst).1
  rw [effectLines]
  split
  · next hop => simp [hop, Machine.Opcode.defines, Machine.Opcode.info?] at hdef
  · next hop => simp [hop, Machine.Opcode.defines, Machine.Opcode.info?] at hdef
  · simp only [hdst, rhsOf_eq_ok.mpr h]
    rfl

theorem straightLines_eq_ok {lines : List Line} :
    straightLines m fn i = .ok lines ↔ ∃ effect, effectLines m fn i = .ok effect ∧
      lines = loadLines m i ++ effect ++ storeLines m i := by
  rw [straightLines, except_bind_eq_ok]
  refine exists_congr fun effect => and_congr_right fun _ => ?_
  exact ⟨fun h => (Except.ok.inj h).symm, fun h => congrArg Except.ok h.symm⟩

/-- A line of an instruction that control falls past: a load, a call, an assignment or a
store. -/
inductive StraightLine (m : Module) (i : Instr) : Line → Prop
  | load (s : Slot) : StraightLine m i (.assign (.slot s) (.load s))
  | call {f : Flow.Function} : m.functionAt? i.target? = some f → StraightLine m i (.call f.name)
  | assign {dst : Slot} {rhs : Rhs} : Computes m dst i rhs →
      StraightLine m i (.assign (.slot dst) rhs)
  | store (s : Slot) : StraightLine m i (.store (.slot s) s)

theorem testLines_eq_ok {yes no : Instr} {lines : List Line}
    (h : testLines m fn flag i yes no = .ok lines) :
    ∃ x v more yesLabel noLabel, i.args = x :: .imm v :: more ∧
      labelOf m yes = .ok yesLabel ∧ labelOf m no = .ok noLabel ∧
      lines = [.assign (.flag flag) (.bin .and (valueOf m x) (.int v)),
        .jnz (.flag flag) yesLabel noLabel] := by
  rw [testLines] at h
  split at h
  · next x v more hargs =>
    obtain ⟨yesLabel, hyes, h⟩ := except_bind_eq_ok.mp h
    obtain ⟨noLabel, hno, h⟩ := except_bind_eq_ok.mp h
    cases h
    exact ⟨x, v, more, yesLabel, noLabel, hargs, hyes, hno, rfl⟩
  · cases h
  · cases h

theorem jumpPair?_eq_some {yes no : Instr} (h : jumpPair? rest = some (yes, no)) :
    (∃ more, rest = yes :: no :: more) ∧ yes.op = .jump ∧ no.op = .jump := by
  rw [jumpPair?.eq_def] at h
  split at h
  · next a b more =>
    split at h
    · next hops =>
      cases h
      exact ⟨⟨more, rfl⟩, hops⟩
    · cases h
  · cases h

/-- An instruction ends the text of its block as a `JUMP`, a `RET` or a `TST` with its two
jumps. -/
inductive Ending (m : Module) (flag : Nat) (rest : List Instr) : Instr → List Line → Prop
  | jump {i : Instr} {label : String} : i.op = .jump → labelOf m i = .ok label →
      Ending m flag rest i [.jmp label]
  | ret {i : Instr} : i.op = .ret → Ending m flag rest i [.ret]
  | test {i yes no : Instr} {x : Operand} {v : Int} {args : List Operand} {more : List Instr}
      {yesLabel noLabel : String} : i.op = .tst → i.args = x :: .imm v :: args →
      rest = yes :: no :: more → yes.op = .jump → no.op = .jump →
      labelOf m yes = .ok yesLabel → labelOf m no = .ok noLabel →
      Ending m flag rest i [.assign (.flag flag) (.bin .and (valueOf m x) (.int v)),
        .jnz (.flag flag) yesLabel noLabel]

theorem endsText_iff : endsText i = true ↔ i.op = .tst ∨ i.op = .jump ∨ i.op = .ret := by
  simp [endsText, or_assoc]

theorem endLines_eq_ok {lines : List Line} (hi : endsText i = true)
    (h : endLines m fn flag i rest = .ok lines) :
    ∃ last, Ending m flag rest i last ∧ lines = loadLines m i ++ last := by
  rw [endLines] at h
  rcases endsText_iff.mp hi with hop | hop | hop
  · simp only [hop] at h
    cases hpair : jumpPair? rest with
    | none => simp [hpair] at h
    | some pair =>
      obtain ⟨yes, no⟩ := pair
      simp only [hpair] at h
      obtain ⟨last, htest, h⟩ := except_bind_eq_ok.mp h
      cases h
      obtain ⟨x, v, args, yesLabel, noLabel, hargs, hyes, hno, rfl⟩ := testLines_eq_ok htest
      obtain ⟨⟨more, hrest⟩, hjump, hjump'⟩ := jumpPair?_eq_some hpair
      exact ⟨_, .test hop hargs hrest hjump hjump' hyes hno, rfl⟩
  · simp only [hop] at h
    obtain ⟨label, hlabel, h⟩ := except_bind_eq_ok.mp h
    cases h
    exact ⟨_, .jump hop hlabel, rfl⟩
  · simp only [hop] at h
    cases h
    exact ⟨_, .ret hop, rfl⟩

/-! ## Blocks -/

theorem bodyOf_cons_of_ends {body : Body} (hi : endsText i = true) :
    bodyOf m fn flag (i :: rest) = .ok body ↔ ∃ lines, endLines m fn flag i rest = .ok lines ∧
      body = ⟨lines, true, if i.op = .tst then flag + 1 else flag⟩ := by
  rw [bodyOf, if_pos hi, except_bind_eq_ok]
  refine exists_congr fun lines => and_congr_right fun _ => ?_
  exact ⟨fun h => (Except.ok.inj h).symm, fun h => congrArg Except.ok h.symm⟩

theorem bodyOf_cons_of_straight {body : Body} (hi : endsText i = false) :
    bodyOf m fn flag (i :: rest) = .ok body ↔ ∃ lines body', straightLines m fn i = .ok lines ∧
      bodyOf m fn flag rest = .ok body' ∧
      body = { body' with lines := lines ++ body'.lines } := by
  rw [bodyOf, if_neg (by simp [hi]), except_bind_eq_ok]
  refine exists_congr fun lines => ?_
  rw [except_bind_eq_ok, ← exists_and_left]
  refine exists_congr fun body' => and_congr_right fun _ => and_congr_right fun _ => ?_
  exact ⟨fun h => (Except.ok.inj h).symm, fun h => congrArg Except.ok h.symm⟩

/-- The instructions in front of the first that ends the text of the block. -/
def lived (instrs : List Instr) : List Instr := instrs.takeWhile fun i => !endsText i

theorem lived_cons_of_ends (hi : endsText i = true) : lived (i :: rest) = [] := by
  simp [lived, hi]

theorem lived_cons_of_straight (hi : endsText i = false) : lived (i :: rest) = i :: lived rest := by
  simp [lived, hi]

/-! ## Functions -/

theorem sectionsOf_cons_eq_ok {label : String} {instrs : List Instr}
    {blocks : List (String × List Instr)} {sections : List Section} {flag' : Nat} :
    sectionsOf m fn flag ((label, instrs) :: blocks) = .ok (sections, flag') ↔
      ∃ body more, bodyOf m fn flag instrs = .ok body ∧
        sectionsOf m fn body.flags blocks = .ok (more, flag') ∧
        sections = ⟨label, body.lines ++
          if !body.ended && blocks.isEmpty then [.ret] else []⟩ :: more := by
  rw [sectionsOf, except_bind_eq_ok]
  refine exists_congr fun body => ?_
  rw [except_bind_eq_ok, ← exists_and_left]
  constructor
  · rintro ⟨⟨more, f⟩, hbody, hmore, h⟩
    cases h
    exact ⟨more, hbody, hmore, rfl⟩
  · rintro ⟨more, hbody, hmore, rfl⟩
    exact ⟨(more, flag'), hbody, hmore, rfl⟩

/-- The lines that give a zero to the slots that nothing defines. -/
def zeroLines (m : Module) (blocks : List (String × List Instr)) : List Line :=
  (undefinedSlots m (blocks.flatMap Prod.snd)).map fun s => .assign (.slot s) (.copy (.int 0))

theorem functionOf_eq_ok {name : String} {blocks : List (String × List Instr)} {f : Function}
    {flag' : Nat} (h : functionOf m name flag blocks = .ok (f, flag')) :
    ∃ sections, sectionsOf m name flag blocks = .ok (sections, flag') ∧
      f = ⟨name, prependLines (zeroLines m blocks) sections⟩ := by
  obtain ⟨⟨sections, f'⟩, hsections, h⟩ := except_bind_eq_ok.mp h
  cases h
  exact ⟨sections, hsections, rfl⟩

theorem functionsOf_eq_ok :
    ∀ (sources : List (String × List (String × List Instr))) {flag : Nat} {fs : List Function},
      functionsOf m flag sources = .ok fs →
        List.Forall₂ (fun source f => ∃ flag flag',
          functionOf m source.1 flag source.2 = .ok (f, flag')) sources fs := by
  intro sources
  induction sources with
  | nil =>
    intro flag fs h
    cases h
    exact .nil
  | cons source sources ih =>
    intro flag fs h
    rw [functionsOf] at h
    obtain ⟨⟨f, flag'⟩, hf, h⟩ := except_bind_eq_ok.mp h
    obtain ⟨more, hmore, h⟩ := except_bind_eq_ok.mp h
    cases h
    exact .cons ⟨flag, flag', hf⟩ (ih hmore)

/-- **The text of a module has its literals, its cells and its functions.** -/
theorem ofModule_eq_ok {t : Text} (h : ofModule m = .ok t) :
    t.literals = m.literals.map (fun l => (l.name, l.bytes)) ∧
      t.cells = (globalSlots m).eraseDups.mergeSort (fun s t => decide (s ≤ t)) ∧
      List.Forall₂ (fun source f => ∃ flag flag',
        functionOf m source.1 flag source.2 = .ok (f, flag')) (sourcesOf m) t.functions := by
  obtain ⟨fs, hfs, h⟩ := except_bind_eq_ok.mp h
  cases h
  exact ⟨rfl, rfl, functionsOf_eq_ok _ hfs⟩

end Isel.Il
