import Isel.Il.Render
import Isel.Proofs.Image
import Isel.Proofs.Listed
import Isel.Proofs.Translation

/-!
# What outputs depend on

Neither the encoded image nor the text of a module shows how its blocks are held: of a reference
to a block they show its name, its number and the function that it is the entry of.  So two
modules that look the same by name (`Instr.Alike`) have the same outputs, faults included, if
blocks of the same name have the same number (`encoded_eq`) and are the entries of functions of the
same name (`written_eq`).
-/

namespace Isel.Proofs

/-! ## Faults that are told -/

section Told

variable {α β γ δ ε ε' : Type} {told : ε → δ} {told' : ε' → δ}

theorem mapError_bind (told : ε → δ) (x : Except ε α) (f : α → Except ε β) :
    (x >>= f).mapError told = x.mapError told >>= fun a => (f a).mapError told := by
  cases x <;> rfl

theorem mapError_error_congr {e : ε} {e' : ε'} (h : told e = told' e') :
    (Except.error e : Except ε α).mapError told = (Except.error e' : Except ε' α).mapError told' :=
  congrArg Except.error h

theorem mapError_pure (a : α) :
    (pure a : Except ε α).mapError told = (pure a : Except ε' α).mapError told' := rfl

/-- Computations that agree in their results and in what is told of their faults. -/
theorem mapError_bind_congr {x : Except ε α} {x' : Except ε' α} {f : α → Except ε β}
    {f' : α → Except ε' β} (hx : x.mapError told = x'.mapError told')
    (hf : ∀ a, (f a).mapError told = (f' a).mapError told') :
    (x >>= f).mapError told = (x' >>= f').mapError told' := by
  rw [mapError_bind, mapError_bind, hx]
  exact congrArg _ (funext hf)

theorem mapError_mapM {R : α → β → Prop} {f : α → Except ε γ} {f' : β → Except ε' γ}
    {xs : List α} {ys : List β} (hxs : List.Forall₂ R xs ys)
    (h : ∀ {x y}, R x y → (f' y).mapError told' = (f x).mapError told) :
    (ys.mapM f').mapError told' = (xs.mapM f).mapError told := by
  induction hxs with
  | nil => rfl
  | cons hx _ ih =>
    rw [List.mapM_cons, List.mapM_cons]
    exact mapError_bind_congr (h hx) fun a => mapError_bind_congr ih fun as => mapError_pure _

end Told

/-! ## Lists that look the same -/

section Lists

variable {α β γ : Type}

theorem forall₂_of_map_eq {R : α → β → Prop} {f : α → γ} {f' : β → γ}
    (h : ∀ x y, f x = f' y → R x y) {xs : List α} {ys : List β} (heq : xs.map f = ys.map f') :
    List.Forall₂ R xs ys := by
  have hsame : List.Forall₂ (· = ·) (xs.map f) (ys.map f') :=
    heq ▸ List.forall₂_same.mpr fun _ _ => rfl
  rw [List.forall₂_map_left_iff, List.forall₂_map_right_iff] at hsame
  exact hsame.imp h

theorem map_eq_of_forall₂ {R : α → β → Prop} {f : α → γ} {f' : β → γ}
    {xs : List α} {ys : List β} (hxs : List.Forall₂ R xs ys) (h : ∀ {x y}, R x y → f' y = f x) :
    ys.map f' = xs.map f := by
  induction hxs with
  | nil => rfl
  | cons hx _ ih => rw [List.map_cons, List.map_cons, h hx, ih]

theorem eq_of_forall₂ {R : α → α → Prop} {xs ys : List α} (hxs : List.Forall₂ R xs ys)
    (h : ∀ x ∈ xs, ∀ y, R x y → y = x) : ys = xs := by
  induction hxs with
  | nil => rfl
  | cons hx _ ih =>
    rw [List.forall_mem_cons] at h
    rw [h.1 _ hx, ih h.2]

theorem isEmpty_eq_of_forall₂ {R : α → β → Prop} {xs : List α} {ys : List β}
    (hxs : List.Forall₂ R xs ys) : ys.isEmpty = xs.isEmpty := by
  cases hxs <;> rfl

theorem filterMap_eq_of_map_eq {f : α → Option γ} {f' : β → Option γ} {xs : List α} {ys : List β}
    (h : ys.map f' = xs.map f) : ys.filterMap f' = xs.filterMap f := by
  have hid := congrArg (List.filterMap id) h
  rw [List.filterMap_map, List.filterMap_map] at hid
  exact hid

end Lists

end Isel.Proofs

namespace Isel.Flow

open Isel.Machine Isel.Proofs

/-! ## Instructions that look the same -/

section Alike

variable {names names' : Names}

/-- The operands differ in the blocks behind a name at most. -/
inductive Operand.Alike (names names' : Names) : Operand → Operand → Prop
  | slot (s : Slot) : Alike names names' (.slot s) (.slot s)
  | imm (v : Int) : Alike names names' (.imm v) (.imm v)
  | literal (index : Nat) : Alike names names' (.literal index) (.literal index)
  | block {t t' : Option BlockRef} : t.map names = t'.map names' →
      Alike names names' (.block t) (.block t')

structure Instr.Alike (names names' : Names) (i i' : Instr) : Prop where
  op : i'.op = i.op
  args : List.Forall₂ (Operand.Alike names names') i.args i'.args

/-- Either there is no block, or there are two of the same name. -/
theorem eq_none_or_names_eq {t t' : Option BlockRef} (h : t.map names = t'.map names') :
    t = none ∧ t' = none ∨ ∃ r r', t = some r ∧ t' = some r' ∧ names r = names' r' := by
  cases t with
  | none =>
    cases t' with
    | none => exact .inl ⟨rfl, rfl⟩
    | some r' => cases h
  | some r =>
    cases t' with
    | none => cases h
    | some r' => exact .inr ⟨r, r', rfl, rfl, Option.some.inj h⟩

theorem targetText_eq {t t' : Option BlockRef} (h : t.map names = t'.map names') :
    targetText names t = targetText names' t' := by
  obtain ⟨rfl, rfl⟩ | ⟨r, r', rfl, rfl, hname⟩ := eq_none_or_names_eq h
  · rfl
  · exact hname

namespace Operand

theorem alike_of_named {x x' : Operand} (h : x.named names = x'.named names') :
    x.Alike names names' x' := by
  cases x <;> cases x' <;> simp only [named, reduceCtorEq, NamedOperand.slot.injEq,
    NamedOperand.imm.injEq, NamedOperand.literal.injEq, NamedOperand.block.injEq] at h
  case slot.slot s s' => exact h ▸ .slot s
  case imm.imm v v' => exact h ▸ .imm v
  case literal.literal n n' => exact h ▸ .literal n
  case block.block t t' => exact .block h

theorem Alike.text {x x' : Operand} (h : x.Alike names names' x') :
    x'.text names' = x.text names := by
  cases h with
  | block ht => exact (targetText_eq ht).symm
  | _ => rfl

theorem Alike.slot? {x x' : Operand} (h : x.Alike names names' x') : x'.slot? = x.slot? := by
  cases h <;> rfl

end Operand

namespace Instr

theorem alike_of_named {i i' : Instr} (h : i.named names = i'.named names') :
    i.Alike names names' i' := by
  rw [named, named, NamedInstr.mk.injEq] at h
  exact ⟨h.1.symm, forall₂_of_map_eq (fun _ _ => Operand.alike_of_named) h.2⟩

namespace Alike

variable {i i' : Instr}

theorem text (h : i.Alike names names' i') : i'.text names' = i.text names := by
  have htexts := map_eq_of_forall₂ h.args Operand.Alike.text
  unfold Instr.text
  rw [h.op, isEmpty_eq_of_forall₂ h.args, htexts]

theorem slots (h : i.Alike names names' i') :
    i'.args.map Operand.slot? = i.args.map Operand.slot? :=
  map_eq_of_forall₂ h.args Operand.Alike.slot?

theorem def? (h : i.Alike names names' i') : i'.def? = i.def? := by
  have hfirst : ∀ i : Instr, i.args.head?.bind Operand.slot? =
      (i.args.map Operand.slot?).head?.join := by
    intro i
    cases i.args <;> rfl
  rw [Instr.def?, Instr.def?, h.op, hfirst, hfirst, h.slots]

theorem uses (h : i.Alike names names' i') : i'.uses = i.uses := by
  unfold Instr.uses sources
  rw [h.op]
  split
  · exact filterMap_eq_of_map_eq (by rw [List.map_drop, List.map_drop, h.slots])
  · exact filterMap_eq_of_map_eq h.slots

theorem target? (h : i.Alike names names' i') : i'.target?.map names' = i.target?.map names := by
  have hfirst : ∀ {xs xs' : List Operand}, List.Forall₂ (Operand.Alike names names') xs xs' →
      (xs'.findSome? Operand.target?).join.map names' =
        (xs.findSome? Operand.target?).join.map names := by
    intro xs xs' hxs
    induction hxs with
    | nil => rfl
    | cons hx _ ih =>
      rw [List.findSome?_cons, List.findSome?_cons]
      cases hx with
      | block ht => exact ht.symm
      | _ => exact ih
  exact hfirst h.args

end Alike

end Instr

end Alike

/-- Parts of a module with the same name and instructions that look the same. -/
def PartsAlike (names names' : Names) (part part' : String × List Instr) : Prop :=
  part'.1 = part.1 ∧ List.Forall₂ (Instr.Alike names names') part.2 part'.2

namespace Module

variable {m m' : Module}

theorem globals_alike (h : m.named = m'.named) :
    List.Forall₂ (Instr.Alike m.blockName m'.blockName) m.globals m'.globals :=
  forall₂_of_map_eq (fun _ _ => Instr.alike_of_named) (congrArg NamedModule.globals h)

theorem functions_alike (h : m.named = m'.named) :
    List.Forall₂ (fun f f' => f'.name = f.name ∧
      List.Forall₂ (fun b b' => PartsAlike m.blockName m'.blockName (b.name, b.instrs)
        (b'.name, b'.instrs)) (m.graph f.graph).blocks (m'.graph f'.graph).blocks)
      m.functions m'.functions := by
  refine forall₂_of_map_eq (fun f f' hf => ?_) (congrArg NamedModule.functions h)
  rw [Prod.mk.injEq] at hf
  refine ⟨hf.1.symm, forall₂_of_map_eq (fun b b' hb => ?_) hf.2⟩
  rw [Block.named, Block.named, NamedBlock.mk.injEq] at hb
  exact ⟨hb.1.symm, forall₂_of_map_eq (fun _ _ => Instr.alike_of_named) hb.2.1⟩

end Module

/-! ## Encoding -/

section Encoding

variable {names names' : Names} {resolve resolve' : Resolver} {i i' : Instr} {x x' : Operand}

def EncodeError.told (names : Names) (e : EncodeError) : String × Category :=
  (e.message names, e.category)

/-- The mismatches differ in the blocks behind a name at most. -/
inductive Mismatch.Alike (names names' : Names) : Mismatch → Mismatch → Prop
  | operands : Alike names names' .operands .operands
  | registers (wanted : Nat) : Alike names names' (.registers wanted) (.registers wanted)
  | registerAndImmediate : Alike names names' .registerAndImmediate .registerAndImmediate
  | oneTarget : Alike names names' .oneTarget .oneTarget
  | notSlot {x x' : Operand} : x.Alike names names' x' →
      Alike names names' (.notSlot x) (.notSlot x')

namespace Instr.Alike

theorem mismatch (h : i.Alike names names' i') {m m' : Mismatch} (hm : m.Alike names names' m') :
    (EncodeError.mismatch i' m').told names' = (EncodeError.mismatch i m).told names := by
  have htext := h.text
  cases hm with
  | notSlot hx =>
    simp only [EncodeError.told, EncodeError.message.eq_def, htext, hx.text, EncodeError.category]
  | _ => simp only [EncodeError.told, EncodeError.message.eq_def, htext, EncodeError.category]

theorem register (h : i.Alike names names' i') (hx : x.Alike names names' x') :
    (i'.register x').mapError (EncodeError.told names') =
      (i.register x).mapError (EncodeError.told names) := by
  have hnotSlot := h.mismatch (.notSlot hx)
  cases hx with
  | slot s =>
    rw [Instr.register, Instr.register]
    split
    · exact mapError_pure _
    · refine mapError_error_congr ?_
      simp only [EncodeError.told, EncodeError.message.eq_def, h.text, Operand.text,
        EncodeError.category]
  | _ => exact mapError_error_congr hnotSlot

theorem immediate (h : i.Alike names names' i') (hx : x.Alike names names' x') :
    (i'.immediate x').mapError (EncodeError.told names') =
      (i.immediate x).mapError (EncodeError.told names) := by
  have himm : (EncodeError.immRange i').told names' = (EncodeError.immRange i).told names := by
    simp only [EncodeError.told, EncodeError.message.eq_def, h.text, EncodeError.category]
  cases hx with
  | imm v =>
    rw [Instr.immediate, Instr.immediate]
    split
    · exact mapError_pure _
    · exact mapError_error_congr himm
  | literal n =>
    rw [Instr.immediate, Instr.immediate]
    split
    · exact mapError_pure _
    · exact mapError_error_congr himm
  | _ => exact mapError_error_congr (h.mismatch .operands)

/-- A jump or a call shows the number of its block. -/
theorem fields (h : i.Alike names names' i')
    (hresolve : ∀ {r r'}, names r = names' r' → resolve' r' = resolve r) :
    (i'.fields resolve').mapError (EncodeError.told names') =
      (i.fields resolve).mapError (EncodeError.told names) := by
  have hlength : i'.args.length = i.args.length := h.args.length_eq.symm
  have hempty : i'.args.isEmpty = i.args.isEmpty := isEmpty_eq_of_forall₂ h.args
  have hargs := h.args
  obtain ⟨op, args⟩ := i
  obtain ⟨op', args'⟩ := i'
  obtain rfl : op' = op := h.op
  unfold Instr.fields
  cases op'.info? with
  | none => exact mapError_error_congr rfl
  | some info =>
    obtain ⟨name, form, operands⟩ := info
    cases form with
    | none =>
      dsimp only
      rw [hempty]
      split
      · exact mapError_pure _
      · exact mapError_error_congr (h.mismatch .operands)
    | reg =>
      dsimp only
      rw [hlength]
      split
      · refine mapError_bind_congr ?_ fun regs => mapError_pure _
        exact mapError_mapM hargs h.register
      · exact mapError_error_congr (h.mismatch (.registers operands))
    | regImm =>
      have hother := h.mismatch .registerAndImmediate
      rcases hargs with _ | ⟨hr, _ | ⟨hv, _ | ⟨_, _⟩⟩⟩
      case cons.cons.nil =>
        exact mapError_bind_congr (h.register hr) fun a =>
          mapError_bind_congr (h.immediate hv) fun imm => mapError_pure _
      all_goals exact mapError_error_congr hother
    | addr =>
      have hother := h.mismatch .oneTarget
      rcases hargs with _ | ⟨hx, _ | ⟨_, _⟩⟩
      case nil => exact mapError_error_congr hother
      case cons.nil =>
        cases hx with
        | block ht =>
          obtain ⟨rfl, rfl⟩ | ⟨r, r', rfl, rfl, hname⟩ := eq_none_or_names_eq ht
          · exact mapError_error_congr hother
          · dsimp only
            rw [hresolve hname]
            cases resolve r with
            | some address => exact mapError_pure _
            | none =>
              refine mapError_error_congr ?_
              simp only [EncodeError.told, EncodeError.message.eq_def, hname, EncodeError.category]
        | _ => exact mapError_error_congr hother
      case cons.cons =>
        cases hx with
        | block ht =>
          obtain ⟨rfl, rfl⟩ | ⟨r, r', rfl, rfl, -⟩ := eq_none_or_names_eq ht <;>
            exact mapError_error_congr hother
        | _ => exact mapError_error_congr hother

theorem encode (h : i.Alike names names' i')
    (hresolve : ∀ {r r'}, names r = names' r' → resolve' r' = resolve r) :
    (i'.encode resolve').mapError (EncodeError.told names') =
      (i.encode resolve).mapError (EncodeError.told names) := by
  refine mapError_bind_congr (h.fields hresolve) fun fields => ?_
  cases fields.encode with
  | ok w => exact mapError_pure w
  | error e => exact mapError_error_congr rfl

end Instr.Alike

def ImageError.told (m : Module) (e : ImageError) : String × Category :=
  (e.message m, e.cause.category)

/-- The encoded image, or what is told of the fault. -/
def Module.encoded (m : Module) : Except (String × Category) (List UInt8) :=
  m.image.mapError (ImageError.told m)

theorem mapError_sectionWords {m m' : Module} {part part' : String × List Instr}
    (h : PartsAlike m.blockName m'.blockName part part')
    (hresolve : ∀ {r r'}, m.blockName r = m'.blockName r' → resolve' r' = resolve r) :
    (Module.sectionWords resolve' part'.1 part'.2).mapError (ImageError.told m') =
      (Module.sectionWords resolve part.1 part.2).mapError (ImageError.told m) := by
  have hlength : part.2.length = part'.2.length := h.2.length_eq
  -- The fault of a section is told as its name and the fault of its instruction.
  have hsection : ∀ (m : Module) (resolve : Resolver) (part : String × List Instr),
      (Module.sectionWords resolve part.1 part.2).mapError (ImageError.told m) =
        ((part.2.mapM (Instr.encode resolve)).mapError (EncodeError.told m.blockName)).mapError
          (fun told => (part.1 ++ ": " ++ told.1, told.2)) >>=
            fun words => pure (BitVec.ofNat 32 part.2.length :: words) := by
    intro m resolve part
    unfold Module.sectionWords
    cases part.2.mapM (Instr.encode resolve) <;> rfl
  rw [hsection, hsection, h.1, hlength, mapError_mapM h.2 fun hi => hi.encode hresolve]

theorem sections_alike {m m' : Module} (h : m.named = m'.named) :
    List.Forall₂ (PartsAlike m.blockName m'.blockName) m.sections m'.sections := by
  refine .cons ⟨rfl, m.globals_alike h⟩ ?_
  rw [List.forall₂_map_left_iff, List.forall₂_map_right_iff]
  exact (m.functions_alike h).imp fun f f' hf => ⟨hf.1, List.rel_flatMap hf.2 fun b b' hb => hb.2⟩

/-- **Modules that look the same have the same image**, if blocks of the same name have the same
number. -/
theorem encoded_eq {m m' : Module} (h : m.named = m'.named)
    (hresolve : ∀ {r r'}, m.blockName r = m'.blockName r' → m'.resolver r' = m.resolver r) :
    m'.encoded = m.encoded := by
  have hbind : ∀ m : Module, m.image =
      (m.sections.mapM fun part => Module.sectionWords m.resolver part.1 part.2) >>=
        fun parts => pure (Stream.write parts.flatten) := by
    intro m
    rw [Module.image_eq]
    cases m.sections.mapM fun part => Module.sectionWords m.resolver part.1 part.2 <;> rfl
  rw [Module.encoded, Module.encoded, hbind, hbind]
  exact mapError_bind_congr (mapError_mapM (sections_alike h) fun hpart =>
    mapError_sectionWords hpart hresolve) fun _ => mapError_pure _

end Encoding

end Isel.Flow

namespace Isel.Il

open Isel.Flow Isel.Proofs

/-! ## Texts -/

/-- The modules look the same by name, and blocks of the same name are the entries of functions of
the same name. -/
structure SameView (m m' : Module) : Prop where
  literals : m'.literals.map Literal.name = m.literals.map Literal.name
  globals : List.Forall₂ (Instr.Alike m.blockName m'.blockName) m.globals m'.globals
  entries : ∀ {t t' : Option BlockRef}, t.map m.blockName = t'.map m'.blockName →
    (m'.functionAt? t').map Flow.Function.name = (m.functionAt? t).map Flow.Function.name

def Stop.told (m : Module) : Stop → Option String := Stop.message? m.blockName

/-- The text as it is written under a configuration, or what is told of the stop. -/
def written (c : Settings.Config) (m : Module) : Except (Option String) String :=
  ((ofModule m).map (Text.render (WordFormat.ofConfig c))).mapError (Stop.told m)

namespace SameView

variable {m m' : Module} {fn : String} {flag : Nat} {i i' : Instr} {x x' : Operand} {dst : Slot}

theorem valueOf_eq (h : SameView m m') (hx : x.Alike m.blockName m'.blockName x') :
    valueOf m' x' = valueOf m x := by
  cases hx with
  | slot s => rfl
  | imm v => rfl
  | literal n =>
    have hname : (m'.literal? n).map Literal.name = (m.literal? n).map Literal.name := by
      rw [Module.literal?, Module.literal?, ← List.getElem?_map, ← List.getElem?_map, h.literals]
    have hvalue : ∀ m : Module, valueOf m (.literal n) =
        ((m.literal? n).map Literal.name).elim (.verbatim ("m" ++ toString n)) .symbol := by
      intro m
      rw [valueOf]
      cases m.literal? n <;> rfl
    rw [hvalue, hvalue, hname]
  | block ht => exact congrArg Value.verbatim (targetText_eq ht).symm

theorem globalSlots_eq (h : SameView m m') : globalSlots m' = globalSlots m :=
  filterMap_eq_of_map_eq (map_eq_of_forall₂ h.globals Instr.Alike.def?)

theorem loadLines_eq (h : SameView m m') (hi : i.Alike m.blockName m'.blockName i') :
    loadLines m' i' = loadLines m i := by
  rw [loadLines, loadLines, hi.uses, h.globalSlots_eq]

theorem storeLines_eq (h : SameView m m') (hi : i.Alike m.blockName m'.blockName i') :
    storeLines m' i' = storeLines m i := by
  rw [storeLines, storeLines, hi.def?, h.globalSlots_eq]

theorem noLowering (fn : String) (hi : i.Alike m.blockName m'.blockName i') :
    (Stop.fault fn (.noLowering i')).told m' = (Stop.fault fn (.noLowering i)).told m := by
  simp only [Stop.told, Stop.message?, Cause.message.eq_def, hi.text]

theorem rhsOf_eq (h : SameView m m') (hi : i.Alike m.blockName m'.blockName i') :
    (rhsOf m' fn dst i').mapError (Stop.told m') = (rhsOf m fn dst i).mapError (Stop.told m) := by
  have hargs := hi.args
  have hno := noLowering fn hi
  obtain ⟨op, args⟩ := i
  obtain ⟨op', args'⟩ := i'
  obtain rfl : op' = op := hi.op
  cases hbin : binOp? op' with
  | some bin =>
    rw [rhsOf_of_binOp? hbin, rhsOf_of_binOp? hbin]
    rcases hargs with _ | ⟨-, _ | ⟨hx, _ | ⟨hy, -⟩⟩⟩
    · split <;> exact mapError_error_congr rfl
    · split <;> exact mapError_error_congr rfl
    · dsimp only
      rw [h.valueOf_eq hx]
      split
      · exact mapError_pure _
      · exact mapError_error_congr rfl
    · dsimp only
      rw [h.valueOf_eq hx, h.valueOf_eq hy]
      split <;> exact mapError_pure _
  | none =>
    cases op' <;> cases hbin
    case loadImm.refl | mov.refl | not.refl | neg.refl =>
      rcases hargs with _ | ⟨-, _ | ⟨hx, -⟩⟩
      · exact mapError_error_congr rfl
      · exact mapError_error_congr rfl
      · simp only [rhsOf, h.valueOf_eq hx]
        exact mapError_pure _
    all_goals exact mapError_error_congr hno

theorem effectLines_eq (h : SameView m m') (hi : i.Alike m.blockName m'.blockName i') :
    (effectLines m' fn i').mapError (Stop.told m') =
      (effectLines m fn i).mapError (Stop.told m) := by
  unfold effectLines
  rw [hi.op]
  split
  · exact mapError_pure _
  · have hentry := h.entries hi.target?.symm
    have hnot : (Stop.fault fn (.notEntry i'.target?)).told m' =
        (Stop.fault fn (.notEntry i.target?)).told m := by
      simp only [Stop.told, Stop.message?, Cause.message.eq_def, targetText_eq hi.target?]
    cases hf : m.functionAt? i.target? <;> cases hf' : m'.functionAt? i'.target? <;>
      rw [hf, hf'] at hentry
    · exact mapError_error_congr hnot
    · cases hentry
    · cases hentry
    · dsimp only
      rw [Option.some.inj hentry]
      exact mapError_pure _
  · rw [hi.def?]
    cases i.def? with
    | some dst => exact mapError_bind_congr (h.rhsOf_eq hi) fun _ => mapError_pure _
    | none => exact mapError_error_congr (noLowering fn hi)

theorem straightLines_eq (h : SameView m m') (hi : i.Alike m.blockName m'.blockName i') :
    (straightLines m' fn i').mapError (Stop.told m') =
      (straightLines m fn i).mapError (Stop.told m) := by
  unfold straightLines
  rw [h.loadLines_eq hi, h.storeLines_eq hi]
  exact mapError_bind_congr (h.effectLines_eq hi) fun _ => mapError_pure _

theorem labelOf_eq (hi : i.Alike m.blockName m'.blockName i') :
    (labelOf m' i').mapError (Stop.told m') = (labelOf m i).mapError (Stop.told m) := by
  unfold labelOf
  obtain ⟨hr, hr'⟩ | ⟨r, r', hr, hr', hname⟩ := eq_none_or_names_eq hi.target?.symm
  · rw [hr, hr']
    exact mapError_error_congr rfl
  · rw [hr, hr']
    dsimp only
    rw [hname]
    exact mapError_pure _

theorem testLines_eq (h : SameView m m') (hi : i.Alike m.blockName m'.blockName i')
    {yes yes' no no' : Instr} (hyes : yes.Alike m.blockName m'.blockName yes')
    (hno : no.Alike m.blockName m'.blockName no') :
    (testLines m' fn flag i' yes' no').mapError (Stop.told m') =
      (testLines m fn flag i yes no).mapError (Stop.told m) := by
  have hother : (Stop.fault fn (.noImmediate i')).told m' =
      (Stop.fault fn (.noImmediate i)).told m := by
    simp only [Stop.told, Stop.message?, Cause.message.eq_def, hi.text]
  have hargs := hi.args
  obtain ⟨op, args⟩ := i
  obtain ⟨op', args'⟩ := i'
  unfold testLines
  rcases hargs with _ | ⟨hx, _ | ⟨hv, -⟩⟩
  · exact mapError_error_congr rfl
  · exact mapError_error_congr rfl
  · cases hv with
    | imm v =>
      dsimp only
      rw [h.valueOf_eq hx]
      exact mapError_bind_congr (labelOf_eq hyes) fun _ =>
        mapError_bind_congr (labelOf_eq hno) fun _ => mapError_pure _
    | _ => exact mapError_error_congr hother

theorem jumpPair_rel {rest rest' : List Instr}
    (h : List.Forall₂ (Instr.Alike m.blockName m'.blockName) rest rest') :
    Option.Rel (fun p p' => p.1.Alike m.blockName m'.blockName p'.1 ∧
      p.2.Alike m.blockName m'.blockName p'.2) (jumpPair? rest) (jumpPair? rest') := by
  rcases h with _ | ⟨hyes, _ | ⟨hno, -⟩⟩
  · exact .none
  · exact .none
  · simp only [jumpPair?, hyes.op, hno.op]
    split
    · exact .some ⟨hyes, hno⟩
    · exact .none

theorem endLines_eq (h : SameView m m') (hi : i.Alike m.blockName m'.blockName i')
    {rest rest' : List Instr}
    (hrest : List.Forall₂ (Instr.Alike m.blockName m'.blockName) rest rest') :
    (endLines m' fn flag i' rest').mapError (Stop.told m') =
      (endLines m fn flag i rest).mapError (Stop.told m) := by
  unfold endLines
  rw [hi.op, h.loadLines_eq hi]
  split
  · exact mapError_bind_congr (labelOf_eq hi) fun _ => mapError_pure _
  · exact mapError_pure _
  · have hpair := jumpPair_rel hrest
    generalize jumpPair? rest = pair at hpair ⊢
    generalize jumpPair? rest' = pair' at hpair ⊢
    cases hpair with
    | none => exact mapError_error_congr rfl
    | some hpair =>
      exact mapError_bind_congr (h.testLines_eq hi hpair.1 hpair.2) fun _ => mapError_pure _

theorem bodyOf_eq (h : SameView m m') {instrs instrs' : List Instr}
    (hinstrs : List.Forall₂ (Instr.Alike m.blockName m'.blockName) instrs instrs') :
    (bodyOf m' fn flag instrs').mapError (Stop.told m') =
      (bodyOf m fn flag instrs).mapError (Stop.told m) := by
  induction hinstrs with
  | nil => exact mapError_pure _
  | cons hi hrest ih =>
    have hends : endsText _ = endsText _ := congrArg
      (fun op : Machine.Opcode => op == .tst || op == .jump || op == .ret) hi.op
    unfold bodyOf
    rw [hends, hi.op]
    split
    · exact mapError_bind_congr (h.endLines_eq hi hrest) fun _ => mapError_pure _
    · exact mapError_bind_congr (h.straightLines_eq hi) fun _ =>
        mapError_bind_congr ih fun _ => mapError_pure _

theorem sectionsOf_eq (h : SameView m m') {blocks blocks' : List (String × List Instr)}
    (hblocks : List.Forall₂ (PartsAlike m.blockName m'.blockName) blocks blocks') :
    (sectionsOf m' fn flag blocks').mapError (Stop.told m') =
      (sectionsOf m fn flag blocks).mapError (Stop.told m) := by
  induction hblocks generalizing flag with
  | nil => exact mapError_pure _
  | @cons b b' rest rest' hb hrest ih =>
    obtain ⟨label, instrs⟩ := b
    obtain ⟨label', instrs'⟩ := b'
    obtain ⟨rfl, hinstrs⟩ : label' = label ∧ _ := hb
    unfold sectionsOf
    rw [isEmpty_eq_of_forall₂ hrest]
    exact mapError_bind_congr (h.bodyOf_eq hinstrs) fun _ =>
      mapError_bind_congr ih fun _ => mapError_pure _

theorem undefinedSlots_eq (h : SameView m m') {instrs instrs' : List Instr}
    (hinstrs : List.Forall₂ (Instr.Alike m.blockName m'.blockName) instrs instrs') :
    undefinedSlots m' instrs' = undefinedSlots m instrs := by
  have hdefs := filterMap_eq_of_map_eq (map_eq_of_forall₂ hinstrs Instr.Alike.def?)
  have huses : instrs'.flatMap Instr.uses = instrs.flatMap Instr.uses := by
    rw [List.flatMap_def, List.flatMap_def, map_eq_of_forall₂ hinstrs Instr.Alike.uses]
  rw [undefinedSlots, undefinedSlots, hdefs, huses, h.globalSlots_eq]

theorem functionOf_eq (h : SameView m m') {name : String}
    {blocks blocks' : List (String × List Instr)}
    (hblocks : List.Forall₂ (PartsAlike m.blockName m'.blockName) blocks blocks') :
    (functionOf m' name flag blocks').mapError (Stop.told m') =
      (functionOf m name flag blocks).mapError (Stop.told m) := by
  have hinstrs : List.Forall₂ (Instr.Alike m.blockName m'.blockName)
      (blocks.flatMap Prod.snd) (blocks'.flatMap Prod.snd) :=
    List.rel_flatMap hblocks fun _ _ hb => hb.2
  unfold functionOf
  rw [h.undefinedSlots_eq hinstrs]
  exact mapError_bind_congr (h.sectionsOf_eq hblocks) fun _ => mapError_pure _

theorem functionsOf_eq (h : SameView m m')
    {sources sources' : List (String × List (String × List Instr))}
    (hsources : List.Forall₂ (fun source source' => source'.1 = source.1 ∧
      List.Forall₂ (PartsAlike m.blockName m'.blockName) source.2 source'.2) sources sources') :
    (functionsOf m' flag sources').mapError (Stop.told m') =
      (functionsOf m flag sources).mapError (Stop.told m) := by
  induction hsources generalizing flag with
  | nil => exact mapError_pure _
  | @cons source source' rest rest' hsource hrest ih =>
    obtain ⟨name, blocks⟩ := source
    obtain ⟨name', blocks'⟩ := source'
    obtain ⟨rfl, hblocks⟩ : name' = name ∧ _ := hsource
    unfold functionsOf
    exact mapError_bind_congr (h.functionOf_eq hblocks) fun _ =>
      mapError_bind_congr ih fun _ => mapError_pure _

theorem sourcesOf_alike (h : m.named = m'.named) :
    List.Forall₂ (fun source source' => source'.1 = source.1 ∧
      List.Forall₂ (PartsAlike m.blockName m'.blockName) source.2 source'.2)
      (sourcesOf m) (sourcesOf m') := by
  have hglobals := m.globals_alike h
  refine List.rel_append ?_ ?_
  · rw [isEmpty_eq_of_forall₂ hglobals]
    split
    · exact .nil
    · exact .cons ⟨rfl, .cons ⟨rfl, hglobals⟩ .nil⟩ .nil
  · rw [List.forall₂_map_left_iff, List.forall₂_map_right_iff]
    refine (m.functions_alike h).imp fun f f' hf => ⟨hf.1, ?_⟩
    rw [List.forall₂_map_left_iff, List.forall₂_map_right_iff]
    exact hf.2

end SameView

/-- **Modules that look the same have the same text**, if blocks of the same name are the entries
of functions of the same name. -/
theorem written_eq {m m' : Module} (h : m.named = m'.named)
    (hentries : ∀ {t t' : Option BlockRef}, t.map m.blockName = t'.map m'.blockName →
      (m'.functionAt? t').map Flow.Function.name = (m.functionAt? t).map Flow.Function.name)
    (c : Settings.Config) : written c m' = written c m := by
  have hliterals : m.literals = m'.literals := congrArg NamedModule.literals h
  have hview : SameView m m' := {
    literals := by rw [hliterals]
    globals := m.globals_alike h
    entries := hentries }
  have htext : (ofModule m').mapError (Stop.told m') = (ofModule m).mapError (Stop.told m) := by
    unfold ofModule
    rw [hliterals, hview.globalSlots_eq]
    exact mapError_bind_congr (hview.functionsOf_eq (SameView.sourcesOf_alike h)) fun _ =>
      mapError_pure _
  have hmap : ∀ m : Module, written c m =
      ((ofModule m).mapError (Stop.told m)).map (Text.render (WordFormat.ofConfig c)) := by
    intro m
    unfold written
    cases ofModule m <;> rfl
  rw [hmap, hmap, htext]

end Isel.Il
