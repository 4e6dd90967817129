import Mathlib.Data.List.Nodup
import Isel.Syntax.Walk

/-!
# Facts about trees

A walk visits a node and then walks through its parts, so the nodes and the labels
of a tree are those of its root and of its parts (`nodes_eq`, `labels_eq`).  In a
tree without sharing the parts have labels apart from each other and from the label
of the root.
-/

namespace Isel.Syntax

/-- The tag of a node that stands in no file. -/
def Tag.nowhere (label : Label) (kind : Kind) : Tag := ⟨label, kind, .nowhere⟩

theorem find?_eq_of_unique {α : Type} {p : α → Bool} {l : List α} {a : α} (ha : a ∈ l)
    (hp : p a = true) (hu : ∀ b ∈ l, p b = true → b = a) : l.find? p = some a := by
  cases h : l.find? p with
  | none => exact absurd hp (List.find?_eq_none.mp h a ha)
  | some b => rw [hu b (List.mem_of_find?_eq_some h) (List.find?_some h)]

/-- Where no value comes twice, members of a list with the same value are the same. -/
theorem eq_of_nodup_filterMap {α β : Type} {f : α → Option β} {l : List α} {a b : α} {x : β}
    (h : (l.filterMap f).Nodup) (ha : a ∈ l) (hb : b ∈ l) (hfa : f a = some x)
    (hfb : f b = some x) : a = b := by
  induction l with
  | nil => cases ha
  | cons c l ih =>
    have hmem : ∀ d ∈ l, f d = some x → x ∈ l.filterMap f :=
      fun d hd hfd => List.mem_filterMap.mpr ⟨d, hd, hfd⟩
    rcases List.mem_cons.mp ha with rfl | ha' <;> rcases List.mem_cons.mp hb with rfl | hb'
    · rfl
    · rw [List.filterMap_cons_some hfa] at h
      exact absurd (hmem b hb' hfb) (List.nodup_cons.mp h).1
    · rw [List.filterMap_cons_some hfb] at h
      exact absurd (hmem a ha' hfa) (List.nodup_cons.mp h).1
    · refine ih ?_ ha' hb'
      cases hc : f c with
      | none => rwa [List.filterMap_cons_none hc] at h
      | some k =>
        rw [List.filterMap_cons_some hc] at h
        exact (List.nodup_cons.mp h).2

namespace Node

instance (n : Node) : Decidable n.Unshared := inferInstanceAs (Decidable n.labels.Nodup)

/-! ## Induction on the parts -/

theorem sizeOf_lt_of_mem_parts {n p : Node} (h : p ∈ n.parts) : sizeOf p < sizeOf n := by
  cases n with
  | absent | bare | param | boolean | ident | number | string => simp [parts] at h
  | program tag decls | call tag callee decls | compound tag decls =>
    simp only [parts] at h
    have := List.sizeOf_lt_of_mem h
    simp only [program.sizeOf_spec, call.sizeOf_spec, compound.sizeOf_spec]
    omega
  | function tag name params result body =>
    simp only [parts, List.mem_append, List.mem_singleton] at h
    simp only [function.sizeOf_spec]
    rcases h with h | rfl
    · have := List.sizeOf_lt_of_mem h
      omega
    · omega
  | var tag name type init | print tag init | ret tag init | scan tag init =>
    simp only [parts, List.mem_singleton] at h
    subst h
    simp only [var.sizeOf_spec, print.sizeOf_spec, ret.sizeOf_spec, scan.sizeOf_spec]
    omega
  | binary tag op left right | ifThen tag left right | loop tag left right =>
    simp only [parts, List.mem_cons, List.not_mem_nil, or_false] at h
    simp only [binary.sizeOf_spec, ifThen.sizeOf_spec, loop.sizeOf_spec]
    rcases h with rfl | rfl <;> omega

/-- What holds of a node if it holds of its parts and of theirs holds of every node.
The second layer is for functions, which open their body themselves. -/
theorem parts_induction {P : Node → Prop}
    (step : ∀ n, (∀ p ∈ n.parts, P p) → (∀ p ∈ n.parts, ∀ q ∈ p.parts, P q) → P n) (n : Node) :
    P n :=
  step n
    (fun p hp =>
      have := sizeOf_lt_of_mem_parts hp
      parts_induction step p)
    (fun p hp q hq =>
      have := Nat.lt_trans (sizeOf_lt_of_mem_parts hq) (sizeOf_lt_of_mem_parts hp)
      parts_induction step q)
termination_by sizeOf n

/-! ## Nodes -/

theorem walkAll_eq (enter : Node → Bool) : ∀ ns : List Node,
    walkAll enter ns = ns.flatMap (walk enter) := by
  intro ns
  induction ns with
  | nil => rw [walkAll]; rfl
  | cons n ns ih => rw [walkAll, ih, List.flatMap_cons]

theorem nodes_eq (n : Node) :
    n.nodes = (if n.isAbsent then [] else [n]) ++ n.parts.flatMap nodes := by
  have hn : nodes = walk fun _ => true := rfl
  rw [hn]
  cases n <;> simp [walk, walkAll_eq, parts, isAbsent]

theorem isAbsent_of_tag? {n : Node} {tag : Tag} (h : n.tag? = some tag) : n.isAbsent = false := by
  cases n with
  | absent => cases h
  | _ => rfl

theorem mem_nodes_self {n : Node} (h : n.isAbsent = false) : n ∈ n.nodes := by
  rw [nodes_eq, h]
  exact List.mem_append_left _ (by simp)

theorem mem_nodes_of_part {n p m : Node} (hp : p ∈ n.parts) (hm : m ∈ p.nodes) : m ∈ n.nodes := by
  rw [nodes_eq]
  exact List.mem_append_right _ (List.mem_flatMap.mpr ⟨p, hp, hm⟩)

theorem mem_nodes_trans {k m : Node} (hk : k ∈ m.nodes) :
    ∀ n : Node, m ∈ n.nodes → k ∈ n.nodes := by
  intro n
  induction n using parts_induction with
  | _ n ih _ =>
  intro hm
  rw [nodes_eq, List.mem_append] at hm
  rcases hm with hm | hm
  · split at hm
    · cases hm
    · rwa [List.mem_singleton.mp hm] at hk
  · obtain ⟨p, hp, hm⟩ := List.mem_flatMap.mp hm
    exact mem_nodes_of_part hp (ih p hp hm)

/-! ## Labels -/

theorem labels_eq (n : Node) : n.labels = n.label?.toList ++ n.parts.flatMap labels := by
  have hparts : ∀ ps : List Node,
      (ps.flatMap nodes).filterMap label? = ps.flatMap labels := by
    intro ps
    induction ps with
    | nil => rfl
    | cons p ps ih => rw [List.flatMap_cons, List.filterMap_append, ih]; rfl
  rw [labels, nodes_eq, List.filterMap_append, hparts]
  cases n <;> rfl

theorem label?_of_decl? {n : Node} {decl : Decl} (h : n.decl? = some decl) :
    n.label? = some decl.label := by
  obtain ⟨tag, htag, he⟩ := Option.map_eq_some_iff.mp h
  rw [label?, htag, ← he]
  rfl

theorem mem_labels {n : Node} {l : Label} : l ∈ n.labels ↔ ∃ m ∈ n.nodes, m.label? = some l :=
  List.mem_filterMap

theorem exists_label? {m : Node} : ∀ n : Node, m ∈ n.nodes → ∃ l, m.label? = some l := by
  intro n
  induction n using parts_induction with
  | _ n ih _ =>
  intro hm
  rw [nodes_eq, List.mem_append] at hm
  rcases hm with hm | hm
  · cases n with
    | absent => cases hm
    | _ =>
      cases List.mem_singleton.mp hm
      exact ⟨_, rfl⟩
  · obtain ⟨p, hp, hm⟩ := List.mem_flatMap.mp hm
    exact ih p hp hm

theorem label_mem_labels {n : Node} {tag : Tag} (h : n.tag? = some tag) : tag.label ∈ n.labels := by
  rw [labels_eq, label?, h]
  simp

theorem parts_sublist (n : Node) : (n.parts.flatMap labels).Sublist n.labels := by
  rw [labels_eq n]
  exact List.sublist_append_right _ _

theorem labels_part_subset {n p : Node} (hp : p ∈ n.parts) : p.labels ⊆ n.labels := by
  intro l hl
  exact (parts_sublist n).subset (List.mem_flatMap.mpr ⟨p, hp, hl⟩)

theorem nodup_parts {n : Node} (hu : n.labels.Nodup) : (n.parts.flatMap labels).Nodup := by
  exact (parts_sublist n).nodup hu

theorem nodup_part {n p : Node} (hu : n.labels.Nodup) (hp : p ∈ n.parts) : p.labels.Nodup :=
  ((List.nodup_flatMap).mp (nodup_parts hu)).1 p hp

/-- Two nodes of a tree without sharing that have the same label are the same. -/
theorem eq_of_label_eq {n a b : Node} {l : Label} (hu : n.labels.Nodup) (ha : a ∈ n.nodes)
    (hb : b ∈ n.nodes) (hla : a.label? = some l) (hlb : b.label? = some l) : a = b :=
  eq_of_nodup_filterMap hu ha hb hla hlb

end Node

end Isel.Syntax
