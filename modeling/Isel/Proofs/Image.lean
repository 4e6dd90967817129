import Mathlib.Data.List.Nodup
import Isel.Flow.Image
import Isel.Proofs.Packing

/-!
# Images can be read back

An image is a stream of words, cut into sections by the lengths in front of them.  Reading it
undoes each layer of writing: bytes give the words (`Stream.read_write`), words the sections
(`Stream.sections?_framed`), and every word the fields of its instruction (`Instr.Holds`).

Blocks are numbered by their place among the blocks of all functions (`Module.place?`).  Where
no two functions have the same graph, that is the numbering of the image
(`Module.resolver_eq`).
-/

namespace Isel.Machine.Stream

/-! ## Streams -/

theorem read?_write (words : List Word) : read? (write words) = some words := by
  induction words with
  | nil => rfl
  | cons w words ih =>
    show (read? (write words)).map (wordOfBytes _ _ _ _ :: ·) = some (w :: words)
    rw [ih, wordOfBytes_fields, Option.map_some]

theorem read_write (words : List Word) : read (write words) = .ok words := by
  rw [read, read?_write]

/-- Cuts words into sections, each behind a word that holds its length.  There are none if the
last section is cut short. -/
def sections? : List Word → Option (List (List Word))
  | [] => some []
  | length :: rest =>
    if length.toNat ≤ rest.length then
      (sections? (rest.drop length.toNat)).map (rest.take length.toNat :: ·)
    else none
termination_by words => words.length
decreasing_by
  rw [List.length_drop, List.length_cons]
  omega

/-- A section behind its length. -/
def framed (words : List Word) : List Word := BitVec.ofNat 32 words.length :: words

/-- **Sections are found again.** -/
theorem sections?_framed {sections : List (List Word)}
    (h : ∀ words ∈ sections, words.length < 0x100000000) :
    sections? (sections.flatMap framed) = some sections := by
  induction sections with
  | nil =>
    rw [List.flatMap_nil]
    unfold sections?
    rfl
  | cons words sections ih =>
    rw [List.forall_mem_cons] at h
    have hlength : (BitVec.ofNat 32 words.length).toNat = words.length := by
      rw [BitVec.toNat_ofNat]
      exact Nat.mod_eq_of_lt h.1
    rw [List.flatMap_cons, framed, List.cons_append]
    unfold sections?
    rw [hlength, List.length_append, if_pos (Nat.le_add_right _ _), List.drop_left, List.take_left,
      ih h.2, Option.map_some]

end Isel.Machine.Stream

namespace Isel.Flow

open Isel.Machine Isel.Proofs

/-! ## Block numbers -/

namespace Numbering

theorem find?_add (n : Numbering) (r q : BlockRef) :
    (n.add r).find? q = if q = r then some n.count else n.find? q := by
  unfold find? add
  rw [List.lookup_cons]
  by_cases h : q = r
  · subst h
    simp
  · rw [if_neg h, beq_false_of_ne h]

theorem find?_foldl : ∀ (l : List BlockRef) (n : Numbering), l.Nodup →
    (∀ r ∈ l, n.find? r = none) → ∀ r,
      (l.foldl add n).find? r = ((l.idxOf? r).map (n.count + ·)).or (n.find? r) := by
  intro l
  induction l with
  | nil =>
    intro n _ _ r
    rfl
  | cons x l ih =>
    intro n hd hnew r
    rw [List.nodup_cons] at hd
    rw [List.forall_mem_cons] at hnew
    have hcount : (n.add x).count = n.count + 1 := by
      unfold add
      rw [hnew.1]
      rfl
    have hrest : ∀ r ∈ l, (n.add x).find? r = none := by
      intro r hr
      have hne : r ≠ x := fun h => hd.1 (h ▸ hr)
      rw [find?_add, if_neg hne]
      exact hnew.2 r hr
    rw [List.foldl_cons, ih (n.add x) hd.2 hrest r, hcount, find?_add, List.idxOf?_cons]
    by_cases h : r = x
    · subst h
      rw [List.idxOf?_eq_none_iff.mpr hd.1]
      simp
    · rw [if_neg h, beq_false_of_ne (Ne.symm h)]
      cases l.idxOf? r with
      | none => rfl
      | some k =>
        show some (n.count + 1 + k) = some (n.count + (k + 1))
        congr 1
        omega

end Numbering

namespace Module

/-- The blocks of all functions, in order. -/
def listed (m : Module) : List BlockRef := m.functions.flatMap fun f => m.blockRefs f.graph

/-- The place of a block among the blocks of all functions. -/
def place? (m : Module) (r : BlockRef) : Option Nat := m.listed.idxOf? r

section Places

variable {m : Module}

theorem mem_blockRefs {g : Nat} {r : BlockRef} :
    r ∈ m.blockRefs g ↔ r.graph = g ∧ r.index < (m.graph g).blocks.length := by
  obtain ⟨g', k⟩ := r
  unfold blockRefs
  rw [List.mem_map]
  constructor
  · rintro ⟨k', hk, h⟩
    cases h
    exact ⟨rfl, List.mem_range.mp hk⟩
  · rintro ⟨rfl, hk⟩
    exact ⟨k, List.mem_range.mpr hk, rfl⟩

theorem nodup_blockRefs (m : Module) (g : Nat) : (m.blockRefs g).Nodup := by
  apply List.nodup_range.map
  intro k k' hk
  cases hk
  rfl

/-- A block is listed twice exactly if it is in the graph of two functions. -/
theorem nodup_listed_iff : m.listed.Nodup ↔ m.functions.Pairwise fun f f' =>
    f.graph = f'.graph → (m.graph f.graph).blocks = [] := by
  rw [listed, List.nodup_flatMap]
  refine (and_iff_right fun (f : Function) _ => m.nodup_blockRefs f.graph).trans ?_
  apply List.Pairwise.iff
  intro f f'
  constructor
  · intro hdisjoint hgraph
    by_contra hblocks
    have hfirst : (⟨f.graph, 0⟩ : BlockRef) ∈ m.blockRefs f.graph :=
      mem_blockRefs.mpr ⟨rfl, List.length_pos_iff.mpr hblocks⟩
    exact hdisjoint hfirst (hgraph ▸ hfirst)
  · intro h r hr hr'
    rw [mem_blockRefs] at hr hr'
    rw [h (hr.1.symm.trans hr'.1)] at hr
    exact Nat.not_lt_zero _ hr.2

theorem nodup_listed (h : (m.functions.map Function.graph).Nodup) : m.listed.Nodup := by
  rw [List.Nodup, List.pairwise_map] at h
  rw [nodup_listed_iff]
  exact h.imp fun hne heq => absurd heq hne

/-- **A block is numbered by its place.** -/
theorem resolver_eq (h : (m.functions.map Function.graph).Nodup) :
    m.resolver = addresses m.place? := by
  funext r
  have hfind : m.numbering.find? r = m.place? r := by
    show (m.listed.foldl Numbering.add {}).find? r = m.listed.idxOf? r
    rw [Numbering.find?_foldl m.listed {} (nodup_listed h) (fun _ _ => rfl)]
    show (Option.map (0 + ·) (m.listed.idxOf? r)).or none = m.listed.idxOf? r
    cases m.listed.idxOf? r with
    | none => rfl
    | some k => simp
  unfold resolver addresses
  rw [hfind]

end Places

/-! ## Sections -/

/-- All instructions of a module in the order of its image, each with the name of its
section. -/
def stream (m : Module) : List (String × Instr) :=
  m.sections.flatMap fun part => part.2.map fun i => (part.1, i)

section Sections

variable {m : Module} {resolve : Resolver}

theorem sectionWords_eq_ok {name : String} {instrs : List Instr} {words : List Word} :
    sectionWords resolve name instrs = .ok words ↔
      ∃ body, instrs.mapM (Instr.encode resolve) = .ok body ∧ words = Stream.framed body := by
  unfold sectionWords
  cases hbody : instrs.mapM (Instr.encode resolve) with
  | error e => simp
  | ok body =>
    have hlength : instrs.length = body.length := (mapM_eq_ok.mp hbody).length_eq
    unfold Stream.framed
    rw [hlength]
    constructor
    · intro h
      cases h
      exact ⟨body, rfl, rfl⟩
    · rintro ⟨body', h, rfl⟩
      cases h
      rfl

def failure? (resolve : Resolver) (p : String × Instr) : Option ImageError :=
  (error? (p.2.encode resolve)).map (ImageError.mk p.1)

theorem error?_sectionWords (name : String) (instrs : List Instr) :
    error? (sectionWords resolve name instrs) =
      (instrs.map fun i => (name, i)).findSome? (failure? resolve) := by
  have hfirst := error?_mapM (Instr.encode resolve) instrs
  rw [List.findSome?_map]
  show _ = instrs.findSome? fun i => (error? (i.encode resolve)).map (ImageError.mk name)
  unfold sectionWords
  cases hbody : instrs.mapM (Instr.encode resolve) with
  | ok body =>
    rw [hbody, eq_comm, error?, List.findSome?_eq_none_iff] at hfirst
    rw [error?, eq_comm, List.findSome?_eq_none_iff]
    intro i hi
    rw [hfirst i hi, Option.map_none]
  | error e =>
    rw [hbody, eq_comm, error?, List.findSome?_eq_some_iff] at hfirst
    obtain ⟨before, i, after, hsplit, hi, hbefore⟩ := hfirst
    rw [error?, eq_comm, List.findSome?_eq_some_iff]
    refine ⟨before, i, after, hsplit, ?_, ?_⟩
    · rw [hi, Option.map_some]
    · intro j hj
      rw [hbefore j hj, Option.map_none]

theorem findSome?_flatMap {α β γ : Type} (f : α → List β) (p : β → Option γ) (l : List α) :
    (l.flatMap f).findSome? p = l.findSome? fun a => (f a).findSome? p := by
  induction l with
  | nil => rfl
  | cons a l ih =>
    rw [List.flatMap_cons, List.findSome?_append, ih, List.findSome?_cons]
    cases (f a).findSome? p with
    | none => rfl
    | some c => rfl

theorem image_eq (m : Module) : m.image =
    match m.sections.mapM fun part => sectionWords m.resolver part.1 part.2 with
    | .error e => .error e
    | .ok parts => .ok (Stream.write parts.flatten) := by
  show (do
    let words ← (do
      let parts ← m.sections.mapM fun (part : String × List Instr) =>
        sectionWords m.resolver part.1 part.2
      return parts.flatten)
    return Stream.write words) = _
  cases m.sections.mapM fun part => sectionWords m.resolver part.1 part.2 with
  | error e => rfl
  | ok parts => rfl

/-- The error of an image is that of the first instruction without a word. -/
theorem error?_image (m : Module) : error? m.image = m.stream.findSome? (failure? m.resolver) := by
  have hsections : error? m.image =
      error? (m.sections.mapM fun part => sectionWords m.resolver part.1 part.2) := by
    rw [image_eq]
    cases m.sections.mapM fun part => sectionWords m.resolver part.1 part.2 with
    | error e => rfl
    | ok parts => rfl
  rw [hsections, error?_mapM, stream, findSome?_flatMap]
  congr 1
  funext part
  exact error?_sectionWords part.1 part.2

/-- The bytes of an image are those of its sections, each behind its length. -/
theorem image_eq_ok {bytes : List UInt8} (h : m.image = .ok bytes) :
    ∃ bodies, List.Forall₂
        (fun part body => part.2.mapM (Instr.encode m.resolver) = .ok body) m.sections bodies ∧
      bytes = Stream.write (bodies.flatMap Stream.framed) := by
  rw [image_eq] at h
  cases hparts : m.sections.mapM fun part => sectionWords m.resolver part.1 part.2 with
  | error e =>
    rw [hparts] at h
    cases h
  | ok parts =>
    rw [hparts] at h
    cases h
    have hframed : ∀ sections parts, List.Forall₂ (fun (part : String × List Instr) words =>
          sectionWords m.resolver part.1 part.2 = .ok words) sections parts →
        ∃ bodies, List.Forall₂ (fun part body => part.2.mapM (Instr.encode m.resolver) = .ok body)
            sections bodies ∧ parts = bodies.map Stream.framed := by
      intro sections parts hall
      induction hall with
      | nil => exact ⟨[], .nil, rfl⟩
      | cons hpart _ ih =>
        obtain ⟨body, hbody, rfl⟩ := sectionWords_eq_ok.mp hpart
        obtain ⟨bodies, hbodies, rfl⟩ := ih
        exact ⟨body :: bodies, .cons hbody hbodies, rfl⟩
    obtain ⟨bodies, hbodies, rfl⟩ := hframed _ _ (mapM_eq_ok.mp hparts)
    exact ⟨bodies, hbodies, by rw [List.flatMap_def]⟩

end Sections

/-- The parts of a module that make up its image: the global sequence, then the instructions of
each function, block by block. -/
def parts (m : Module) : List (List Instr) :=
  m.globals :: m.functions.map fun f => (m.graph f.graph).blocks.flatMap Block.instrs

/-- **The image of a module can be read back.**  Its bytes are words, the words are one section
for each part of the module, and each word of a section holds its instruction.  There is no
image exactly if some instruction has no word, and then the first one says why. -/
theorem image_reads_back {m : Module} (hgraphs : (m.functions.map Function.graph).Nodup)
    (hlength : ∀ part ∈ m.parts, part.length < 0x100000000) :
    (∀ bytes, m.image = .ok bytes → ∃ words sections,
      Stream.read bytes = .ok words ∧ Stream.sections? words = some sections ∧
      sections.length = 1 + m.functions.length ∧
      List.Forall₂ (List.Forall₂ fun i w => ∃ f, w.decode = .ok f ∧ i.Holds m.place? f)
        m.parts sections) ∧
    ∀ e, m.image = .error e ↔ ∃ before i after,
      m.stream = before ++ (e.sectionName, i) :: after ∧
      i.encode (addresses m.place?) = .error e.cause ∧
      ∀ p ∈ before, ∃ w, p.2.encode (addresses m.place?) = .ok w := by
  have hparts : m.parts = m.sections.map Prod.snd := by
    unfold parts sections
    rw [List.map_cons, List.map_map]
    rfl
  have hresolve := resolver_eq hgraphs
  constructor
  · intro bytes h
    obtain ⟨bodies, hbodies, rfl⟩ := image_eq_ok h
    have hall : List.Forall₂ (List.Forall₂ fun i w => i.encode (addresses m.place?) = .ok w)
        m.parts bodies := by
      rw [hparts, List.forall₂_map_left_iff, ← hresolve]
      exact hbodies.imp fun _ _ => mapM_eq_ok.mp
    have hshort : ∀ words ∈ bodies, words.length < 0x100000000 := by
      have hlengths : m.parts.map List.length = bodies.map List.length := by
        rw [← List.forall₂_eq_eq_eq, List.forall₂_map_left_iff, List.forall₂_map_right_iff]
        exact hall.imp fun _ _ hpart => hpart.length_eq
      intro words hwords
      have hmem : words.length ∈ m.parts.map List.length :=
        hlengths ▸ List.mem_map_of_mem hwords
      obtain ⟨part, hpart, heq⟩ := List.mem_map.mp hmem
      rw [← heq]
      exact hlength part hpart
    refine ⟨_, bodies, Stream.read_write _, Stream.sections?_framed hshort, ?_, ?_⟩
    · rw [← hall.length_eq, parts, List.length_cons, List.length_map, Nat.add_comm]
    · exact hall.imp fun _ _ hpart => hpart.imp fun _ _ => Instr.decode_of_encode
  · intro e
    rw [← error?_eq_some, error?_image, hresolve, List.findSome?_eq_some_iff]
    constructor
    · rintro ⟨before, ⟨name, i⟩, after, hsplit, hi, hbefore⟩
      obtain ⟨cause, hcause, rfl⟩ := Option.map_eq_some_iff.mp hi
      refine ⟨before, i, after, hsplit, error?_eq_some.mp hcause, ?_⟩
      intro p hp
      exact error?_eq_none.mp (Option.map_eq_none_iff.mp (hbefore p hp))
    · rintro ⟨before, i, after, hsplit, hi, hbefore⟩
      refine ⟨before, (e.sectionName, i), after, hsplit, ?_, ?_⟩
      · rw [failure?, error?_eq_some.mpr hi]
        rfl
      · intro p hp
        rw [failure?, error?_eq_none.mpr (hbefore p hp), Option.map_none]

/-- A function that loads a literal and a negative number, adds them and calls a function
without instructions, and a global sequence. -/
def callingModule : Module where
  graphs :=
    [{ blocks := [{ name := "Block0", instrs := [⟨.loadImm, [.slot 1, .literal 2]⟩,
          ⟨.loadImm, [.slot 2, .imm (-1)]⟩, ⟨.add, [.slot 3, .slot 1, .slot 2]⟩] },
        { name := "Block1", instrs := [⟨.call, [.block (some ⟨1, 0⟩)]⟩, ⟨.ret, []⟩] }] },
     { blocks := [{ name := "Block2" }] }]
  functions := [⟨"f", 0⟩, ⟨"h", 1⟩]
  globals := [⟨.mov, [.slot 0, .slot 255]⟩]

theorem callingModule_reads_back : ∃ bytes words sections,
    callingModule.image = .ok bytes ∧ Stream.read bytes = .ok words ∧
      Stream.sections? words = some sections ∧ sections.length = 3 ∧
      List.Forall₂ (List.Forall₂ fun i w => ∃ f, w.decode = .ok f ∧
        i.Holds callingModule.place? f) callingModule.parts sections := by
  have hgraphs : (callingModule.functions.map Function.graph).Nodup := by decide
  have hlength : ∀ part ∈ callingModule.parts, part.length < 0x100000000 := by decide
  cases himage : callingModule.image with
  | error e =>
    have hok : (error? callingModule.image).isNone = true := by decide +kernel
    rw [himage] at hok
    cases hok
  | ok bytes =>
    obtain ⟨words, sections, hread⟩ := (image_reads_back hgraphs hlength).1 bytes himage
    exact ⟨bytes, words, sections, rfl, hread⟩

end Module

end Isel.Flow
