import Isel.Proofs.Switching

/-!
# Which flag decides a warning

A flag says of a warning that it is on, that it is off, or nothing (`Flag.verdict?`), and of several
flags the last one that says something decides (`Config.warns_foldl`).  In a list of flags `Wall`,
`Wno-all` and `pedantic` are taken first, so that flags for a single warning come after them.

Two more spellings speak for all warnings at once: `all` is read as `Wall`, and `Wpedantic` as
`pedantic`.  They are taken where they stand.  So the last flag for a single warning decides it
unless one of these two stands behind (`Config.withFlags_specific`).
-/

namespace Isel.Settings

/-! ## One flag -/

/-- The flags for a single warning. -/
def Warning.ownFlags (w : Warning) : List String := ["W" ++ w.name, w.name, "Wno-" ++ w.name]

/-- What a flag says about a warning. -/
def Flag.verdict? (w : Warning) : Flag → Option Bool
  | .allWarnings on => if w = .pedantic then none else some on
  | .warning name on =>
    if name = w.name then some on
    else if name = Warning.pedantic.name ∧ on = true then some true
    else none
  | .feature _ _ => none

namespace Config

variable {c : Config}

theorem warns_withWarningNamed (h : c.Standard) (v w : Warning) (on : Bool) :
    (c.withWarningNamed v.name on).warns w =
      if v = w then on else if v = .pedantic ∧ on = true then true else c.warns w := by
  have hnumber : c.warnings.number? v.name = some v.number := h.number?_warning.mpr ⟨v, rfl, rfl⟩
  rw [withWarningNamed]
  simp only [Warning.name_inj, hnumber]
  by_cases hv : v = .pedantic
  · subst hv
    rw [if_pos rfl]
    cases on with
    | true =>
      rw [if_pos rfl, warns_setEach h, if_pos (by cases w <;> decide)]
      simp
    | false =>
      rw [if_neg Bool.false_ne_true, warns_withWarning h]
      simp [eq_comm]
  · rw [if_neg hv, warns_withWarning h]
    simp [hv, eq_comm]

theorem warns_apply (h : c.Standard) (f : Flag) (w : Warning) :
    (c.apply f).warns w = (f.verdict? w).getD (c.warns w) := by
  cases f with
  | allWarnings on =>
    have hgroup : w ∈ groupWarnings ↔ w ≠ .pedantic := by cases w <;> decide
    rw [apply, warns_setEach h, Flag.verdict?]
    by_cases hw : w = .pedantic
    · rw [if_neg fun hmem => hgroup.mp hmem hw, if_pos hw, Option.getD_none]
    · rw [if_pos (hgroup.mpr hw), if_neg hw, Option.getD_some]
  | warning name on =>
    rw [apply, Flag.verdict?]
    by_cases hname : ∃ v : Warning, v.name = name
    · obtain ⟨v, rfl⟩ := hname
      rw [warns_withWarningNamed h]
      simp only [Warning.name_inj]
      split
      · rfl
      · split <;> rfl
    · have hne : ∀ v : Warning, name ≠ v.name := fun v hv => hname ⟨v, hv.symm⟩
      have hnone : c.warnings.number? name = none := by
        rw [Option.eq_none_iff_forall_ne_some]
        intro number hnumber
        obtain ⟨v, hv, -⟩ := h.number?_warning.mp hnumber
        exact hname ⟨v, hv⟩
      rw [withWarningNamed, if_neg (hne _), hnone, if_neg (hne w), if_neg fun hp => hne _ hp.1]
      rfl
  | feature name on =>
    rw [apply, withFeatureNamed, Flag.verdict?]
    split <;> rfl

end Config

/-! ## The texts of flags -/

namespace Flag

/-- What a flag that is written without its hyphen says about a warning. -/
def says? (w : Warning) (name : String) : Option Bool := (ofText ("-" ++ name)).verdict? w

/-- How a flag that is written without its hyphen is read. -/
theorem ofText_cases (name : String) :
    (∃ rest, name = "Wno-" ++ rest ∧ ofText ("-" ++ name) = ofWarningName rest.toList false) ∨
    (∃ rest, name = "W" ++ rest ∧ ofText ("-" ++ name) = ofWarningName rest.toList true) ∨
    (∃ rest on, ofText ("-" ++ name) = .feature rest on) ∨
    ofText ("-" ++ name) = ofWarningName name.toList true := by
  have hchars : ofText ("-" ++ name) = ofChars name.toList := by
    rw [ofText, String.toList_append]
    rfl
  have hname : ∀ start rest, name.toList = start ++ rest →
      name = String.ofList start ++ String.ofList rest := by
    intro start rest h
    rw [← String.ofList_append, ← h, String.ofList_toList]
  rw [hchars]
  generalize hl : name.toList = l at hname ⊢
  unfold ofChars
  split
  · next rest =>
    refine .inl ⟨String.ofList rest, hname ['W', 'n', 'o', '-'] rest rfl, ?_⟩
    rw [String.toList_ofList]
  · next rest _ =>
    refine .inr (.inl ⟨String.ofList rest, hname ['W'] rest rfl, ?_⟩)
    rw [String.toList_ofList]
  · exact .inr (.inr (.inl ⟨_, _, rfl⟩))
  · exact .inr (.inr (.inl ⟨_, _, rfl⟩))
  · exact .inr (.inr (.inr rfl))

/-- A name stands for one warning, for the group of all, or for the pedantic one, which switches
the others on and never off. -/
theorem verdict?_ofWarningName {w : Warning} {name : String} {on b : Bool}
    (h : (ofWarningName name.toList on).verdict? w = some b) :
    (b = on ∧ (name = "all" ∨ name = w.name)) ∨ (b = true ∧ on = true ∧ name = "pedantic") := by
  rw [ofWarningName] at h
  split at h
  · next hall =>
    have hname : name = "all" := String.toList_inj.mp hall
    rw [verdict?] at h
    split at h
    · cases h
    · exact .inl ⟨(Option.some.inj h).symm, .inl hname⟩
  · rw [String.ofList_toList, verdict?] at h
    split at h
    · next hname => exact .inl ⟨(Option.some.inj h).symm, .inr hname⟩
    · split at h
      · next hpedantic => exact .inr ⟨(Option.some.inj h).symm, hpedantic.2, hpedantic.1⟩
      · cases h

/-- A flag that says something has the name of the warning, of the group of all, or of the pedantic
one. -/
theorem says?_cases {w : Warning} {name : String} {b : Bool} (h : says? w name = some b) :
    (b = false ∧ ∃ rest ∈ ["all", w.name], name = "Wno-" ++ rest) ∨
      (b = true ∧ ∃ rest ∈ ["all", w.name, "pedantic"], name = "W" ++ rest ∨ name = rest) := by
  rw [says?] at h
  rcases ofText_cases name with ⟨rest, hname, hread⟩ | ⟨rest, hname, hread⟩ |
    ⟨rest, on, hread⟩ | hread
  · rw [hread] at h
    rcases verdict?_ofWarningName h with ⟨rfl, hrest⟩ | ⟨-, hon, -⟩
    · exact .inl ⟨rfl, rest, by simp [hrest], hname⟩
    · cases hon
  · rw [hread] at h
    rcases verdict?_ofWarningName h with ⟨rfl, hrest⟩ | ⟨rfl, -, hrest⟩
    · exact .inr ⟨rfl, rest, by simp [or_assoc.symm, hrest], .inl hname⟩
    · exact .inr ⟨rfl, rest, by simp [hrest], .inl hname⟩
  · rw [hread] at h
    cases h
  · rw [hread] at h
    rcases verdict?_ofWarningName h with ⟨rfl, hrest⟩ | ⟨rfl, -, hrest⟩
    · exact .inr ⟨rfl, name, by simp [or_assoc.symm, hrest], .inr rfl⟩
    · exact .inr ⟨rfl, name, by simp [hrest], .inr rfl⟩

/-- **The flags that switch a warning on.** -/
theorem says?_eq_true {w : Warning} (hw : w ≠ .pedantic) {name : String} :
    says? w name = some true ↔
      name ∈ ["Wall", "W" ++ w.name, "Wpedantic", "all", w.name, "pedantic"] := by
  constructor
  · intro h
    rcases says?_cases h with ⟨hb, -⟩ | ⟨-, rest, hrest, hname⟩
    · cases hb
    · simp only [List.mem_cons, List.not_mem_nil, or_false] at hrest
      rcases hrest with rfl | rfl | rfl
      all_goals rcases hname with rfl | rfl <;> simp
  · intro h
    simp only [List.mem_cons, List.not_mem_nil, or_false] at h
    rcases h with rfl | rfl | rfl | rfl | rfl | rfl
    all_goals
      cases w with
      | pedantic => exact absurd rfl hw
      | _ => decide

/-- **The flags that switch a warning off.** -/
theorem says?_eq_false {w : Warning} (hw : w ≠ .pedantic) {name : String} :
    says? w name = some false ↔ name ∈ ["Wno-all", "Wno-" ++ w.name] := by
  constructor
  · intro h
    rcases says?_cases h with ⟨-, rest, hrest, rfl⟩ | ⟨hb, -⟩
    · simp only [List.mem_cons, List.not_mem_nil, or_false] at hrest
      rcases hrest with rfl | rfl <;> simp
    · cases hb
  · intro h
    simp only [List.mem_cons, List.not_mem_nil, or_false] at h
    rcases h with rfl | rfl
    all_goals
      cases w with
      | pedantic => exact absurd rfl hw
      | _ => decide

end Flag

/-! ## Lists of flags -/

namespace Config

/-- **The last flag that says something decides.** -/
theorem warns_foldl {c : Config} (h : c.Standard) (names : List String) (w : Warning) :
    (names.foldl (fun c name => c.withFlag ("-" ++ name)) c).warns w =
      ((names.filterMap (Flag.says? w)).getLast?).getD (c.warns w) := by
  induction names generalizing c with
  | nil => rfl
  | cons name names ih =>
    have hstep : (c.withFlag ("-" ++ name)).warns w = (Flag.says? w name).getD (c.warns w) :=
      warns_apply h _ w
    have hnext : (c.withFlag ("-" ++ name)).Standard := h.apply _
    rw [List.foldl_cons, ih hnext, hstep, List.filterMap_cons]
    cases Flag.says? w name with
    | none => rfl
    | some b =>
      rw [List.getLast?_cons]
      rfl

theorem withFlags_eq (c : Config) (names : List String) : c.withFlags names =
    (names.filter isGroupFlag ++ names.filter (not ∘ isGroupFlag)).foldl
      (fun c name => c.withFlag ("-" ++ name)) c := by
  rw [withFlags, List.partition_eq_filter_filter]

theorem isGroupFlag_of_mem_ownFlags {w : Warning} (hw : w ≠ .pedantic) {f : String}
    (hf : f ∈ w.ownFlags) : isGroupFlag f = false := by
  simp only [Warning.ownFlags, List.mem_cons, List.not_mem_nil, or_false] at hf
  rcases hf with rfl | rfl | rfl
  all_goals
    cases w with
    | pedantic => exact absurd rfl hw
    | _ => decide

/-- A flag for a single warning switches it on unless it is written with `no-`. -/
theorem says?_of_mem_ownFlags {w : Warning} (hw : w ≠ .pedantic) {f : String}
    (hf : f ∈ w.ownFlags) : Flag.says? w f = some (decide (f ≠ "Wno-" ++ w.name)) := by
  by_cases hoff : f = "Wno-" ++ w.name
  · rw [decide_eq_false (not_not_intro hoff), Flag.says?_eq_false hw]
    simp [hoff]
  · rw [decide_eq_true hoff, Flag.says?_eq_true hw]
    simp only [Warning.ownFlags, List.mem_cons, List.not_mem_nil, or_false, hoff] at hf
    rcases hf with rfl | rfl <;> simp

/-- Of the flags that are taken late and are not for the single warning, only two say something
about it, and they switch it on. -/
theorem says?_of_late {w : Warning} (hw : w ≠ .pedantic) {g : String} (hg : g ∉ w.ownFlags)
    (hlate : isGroupFlag g = false) {b : Bool} :
    Flag.says? w g = some b ↔ b = true ∧ (g = "all" ∨ g = "Wpedantic") := by
  simp only [Warning.ownFlags, List.mem_cons, List.not_mem_nil, or_false, not_or] at hg
  simp only [isGroupFlag, Bool.or_eq_false_iff, beq_eq_false_iff_ne] at hlate
  cases b with
  | false =>
    rw [Flag.says?_eq_false hw]
    simp [hg, hlate]
  | true =>
    rw [Flag.says?_eq_true hw]
    simp [hg, hlate, or_comm]

/-- Where all verdicts behind one are `true`, it decides only if there are none. -/
theorem getLast?_getD_eq_true {verdicts : List Bool} (h : ∀ b ∈ verdicts, b = true) (b : Bool) :
    verdicts.getLast?.getD b = true ↔ b = true ∨ true ∈ verdicts := by
  cases hlast : verdicts.getLast? with
  | none => simp [List.getLast?_eq_none_iff.mp hlast]
  | some a =>
    have hmem := List.mem_of_getLast? hlast
    have ha := h a hmem
    subst ha
    simp [hmem]

theorem mem_late_verdicts {w : Warning} (hw : w ≠ .pedantic) {after : List String}
    (hlast : ∀ g ∈ after, g ∉ w.ownFlags) {b : Bool} :
    b ∈ (after.filter (not ∘ isGroupFlag)).filterMap (Flag.says? w) ↔
      b = true ∧ ("all" ∈ after ∨ "Wpedantic" ∈ after) := by
  rw [List.mem_filterMap]
  constructor
  · rintro ⟨g, hg, hsays⟩
    obtain ⟨hmem, hlate⟩ := List.mem_filter.mp hg
    obtain ⟨hb, rfl | rfl⟩ :=
      (says?_of_late hw (hlast g hmem) (by simpa using hlate)).mp hsays
    · exact ⟨hb, .inl hmem⟩
    · exact ⟨hb, .inr hmem⟩
  · rintro ⟨rfl, hmem | hmem⟩
    · exact ⟨"all", List.mem_filter.mpr ⟨hmem, rfl⟩, (Flag.says?_eq_true hw).mpr (by simp)⟩
    · exact ⟨"Wpedantic", List.mem_filter.mpr ⟨hmem, rfl⟩, (Flag.says?_eq_true hw).mpr (by simp)⟩

/-- **Flags for a single warning** win over `Wall`, `Wno-all` and `pedantic` wherever these stand,
and over every flag in front of them.  The last one decides, except that `all` and `Wpedantic`
behind it switch the warning on.  The tables of a configuration are the standard ones whatever was
done to it (`Standard.change`). -/
theorem withFlags_specific {c : Config} (hc : c.Standard) {w : Warning} (hw : w ≠ .pedantic)
    {before after : List String} {f : String} (hf : f ∈ w.ownFlags)
    (hlast : ∀ g ∈ after, g ∉ w.ownFlags) :
    (c.withFlags (before ++ f :: after)).warns w = true ↔
      f ≠ "Wno-" ++ w.name ∨ "all" ∈ after ∨ "Wpedantic" ∈ after := by
  have hlate : (not ∘ isGroupFlag) f = true := by
    simp [isGroupFlag_of_mem_ownFlags hw hf]
  have hverdicts : ∀ b ∈ (after.filter (not ∘ isGroupFlag)).filterMap (Flag.says? w), b = true :=
    fun b hb => ((mem_late_verdicts hw hlast).mp hb).1
  -- The flags that are taken late end in `f` and what stands behind it.
  have hsplit : (before ++ f :: after).filter (not ∘ isGroupFlag) =
      before.filter (not ∘ isGroupFlag) ++ f :: after.filter (not ∘ isGroupFlag) := by
    rw [List.filter_append, List.filter_cons_of_pos hlate]
  rw [withFlags_eq, warns_foldl hc, hsplit, ← List.append_assoc, List.filterMap_append,
    List.filterMap_cons_some (says?_of_mem_ownFlags hw hf), List.getLast?_append,
    List.getLast?_cons, Option.some_or, Option.getD_some, getLast?_getD_eq_true hverdicts,
    decide_eq_true_iff, mem_late_verdicts hw hlast, and_iff_right rfl]

/-- Groups behind `Wno-imm-range` do not matter, and neither does what stands in front of it or was
done before. -/
theorem immRange_specific :
    (withFlag {} "-pedantic").Standard ∧ "Wno-imm-range" ∈ Warning.ownFlags .immRange ∧
    (∀ g ∈ ["Wall", "Wambiguous-op", "pedantic"], g ∉ Warning.ownFlags .immRange) ∧
    (withFlags (withFlag {} "-pedantic") (["Wimm-range", "Wpedantic"] ++
      "Wno-imm-range" :: ["Wall", "Wambiguous-op", "pedantic"])).warns .immRange = false := by
  have hc : (withFlag {} "-pedantic").Standard := standard_new.apply _
  have hlast : ∀ g ∈ ["Wall", "Wambiguous-op", "pedantic"], g ∉ Warning.ownFlags .immRange := by
    decide
  refine ⟨hc, by decide, hlast, ?_⟩
  rw [Bool.eq_false_iff]
  intro hon
  have hcases := (withFlags_specific hc (by decide) (by decide) hlast).mp hon
  revert hcases
  decide

/-- Behind `Wno-imm-range` the flag `Wpedantic` switches the warning on again, while `pedantic` in
the same place does not. -/
theorem immRange_overruled :
    "Wno-imm-range" ∈ Warning.ownFlags .immRange ∧ "Wpedantic" ∉ Warning.ownFlags .immRange ∧
    (withFlags {} ["Wno-imm-range", "Wpedantic"]).warns .immRange = true ∧
    (withFlags {} ["Wno-imm-range", "pedantic"]).warns .immRange = false := by
  decide

end Config

end Isel.Settings
