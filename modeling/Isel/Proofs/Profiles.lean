import Isel.Proofs.Flags

/-!
# What is kept of a refused change

A configuration is changed step by step (`Config.changed`).  A change is refused (`Change.Refused`)
if it asks for nothing that exists: a number out of range, flags with unknown names only, a profile
other than the two.  A refused change leaves all as it is, with one exception: a profile
that does not exist leaves its name behind, where the name of the last profile was
(`Config.change_of_refused`).

So the profile of a configuration is the last one asked for (`Config.profile_changed`), and this is
the last one that exists only if none that does not exist was asked for behind it
(`Config.changed_profile`).
-/

namespace Isel.Settings

/-! ## Changes -/

def profiles : List String := ["reference", "tosc"]

/-- A change that is asked for. -/
inductive Change where
  | target (os arch name : String)
  | feature (number : Int) (on : Bool)
  | warning (number : Int) (on : Bool)
  | profile (name : String)
  | flag (text : String)
  | flags (names : List String)
  | directive (text : String)
  deriving DecidableEq, Repr

def Change.profile? : Change → Option String
  | .profile name => some name
  | _ => none

/-- The flag has the name of nothing that can be switched. -/
def Flag.Unknown : Flag → Prop
  | .allWarnings _ => False
  | .warning name _ => name ∉ Warning.infos.map Info.name
  | .feature name _ => name ∉ Feature.infos.map Info.name

instance (f : Flag) : Decidable f.Unknown :=
  match f with
  | .allWarnings _ => inferInstanceAs (Decidable False)
  | .warning name _ => inferInstanceAs (Decidable (name ∉ Warning.infos.map Info.name))
  | .feature name _ => inferInstanceAs (Decidable (name ∉ Feature.infos.map Info.name))

/-- The change asks for nothing that exists. -/
def Change.Refused : Change → Prop
  | .target .. => False
  | .feature number _ => number < 0 ∨ (Feature.infos.length : Int) ≤ number
  | .warning number _ => number < 0 ∨ (Warning.infos.length : Int) ≤ number
  | .profile name => name ∉ profiles
  | .flag text => (Flag.ofText text).Unknown
  | .flags names => ∀ name ∈ names, (Flag.ofText ("-" ++ name)).Unknown
  | .directive text => ∀ word ∈ Text.words text, (Flag.ofText word).Unknown

instance (s : Change) : Decidable s.Refused :=
  match s with
  | .target .. => inferInstanceAs (Decidable False)
  | .feature number _ =>
    inferInstanceAs (Decidable (number < 0 ∨ (Feature.infos.length : Int) ≤ number))
  | .warning number _ =>
    inferInstanceAs (Decidable (number < 0 ∨ (Warning.infos.length : Int) ≤ number))
  | .profile name => inferInstanceAs (Decidable (name ∉ profiles))
  | .flag text => inferInstanceAs (Decidable (Flag.ofText text).Unknown)
  | .flags names =>
    inferInstanceAs (Decidable (∀ name ∈ names, (Flag.ofText ("-" ++ name)).Unknown))
  | .directive text =>
    inferInstanceAs (Decidable (∀ word ∈ Text.words text, (Flag.ofText word).Unknown))

namespace Config

/-- Makes a change and says whether it was an error. -/
def change (platform : String → String → String) (c : Config) :
    Change → Config × Except UnknownProfile Unit
  | .target os arch name => ((c.withTarget platform os arch name).1, .ok ())
  | .feature number on => (c.withFeature number on, .ok ())
  | .warning number on => (c.withWarning number on, .ok ())
  | .profile name => c.withProfile name
  | .flag text => (c.withFlag text, .ok ())
  | .flags names => (c.withFlags names, .ok ())
  | .directive text => (c.withDirective text, .ok ())

/-- The configuration after changes one after the other, errors or not. -/
def changed (platform : String → String → String) (c : Config) (changes : List Change) : Config :=
  changes.foldl (fun c s => (c.change platform s).1) c

variable {platform : String → String → String} {c : Config}

theorem Standard.change (h : c.Standard) (s : Change) : (c.change platform s).1.Standard := by
  cases s with
  | target os arch name => exact h.withTarget platform os arch name
  | feature number on => exact h.withFeature number on
  | warning number on => exact h.withWarning number on
  | profile name => exact h.withProfile name
  | flag text => exact h.apply _
  | flags names =>
    rw [Config.change, withFlags_eq]
    exact h.foldl (fun c name hc => hc.apply _) _
  | directive text => exact h.foldl (fun c word hc => hc.apply _) _

/-- The tables stay what they are in a new configuration. -/
theorem standard_changed (platform : String → String → String) (changes : List Change) :
    (changed platform {} changes).Standard :=
  standard_new.foldl (fun _ s h => h.change s) changes

/-! ## Refused changes -/

section Refused

theorem number?_eq_none {s : Switches} {infos : List Info} (hs : s.Of infos)
    (hnames : (infos.map Info.name).Nodup) {name : String} (h : name ∉ infos.map Info.name) :
    s.number? name = none := by
  rw [Option.eq_none_iff_forall_ne_some]
  intro number hnumber
  obtain ⟨label, hlabel, -, rfl⟩ := (hs.number?_eq_some hnames).mp hnumber
  rw [hs.labels, Switches.labels] at hlabel
  obtain ⟨e, he, rfl⟩ := List.mem_map.mp hlabel
  obtain ⟨i, hi, rfl⟩ := List.mem_mapIdx.mp he
  exact h (List.mem_map_of_mem (List.getElem_mem hi))

theorem apply_of_unknown (hc : c.Standard) {f : Flag} (h : f.Unknown) : c.apply f = c := by
  cases f with
  | allWarnings on => exact h.elim
  | warning name on =>
    have hne : name ≠ Warning.pedantic.name := by
      rintro rfl
      exact h (by decide)
    have hname := number?_eq_none hc.warnings (by decide) h
    simp only [apply, withWarningNamed, if_neg hne, hname]
  | feature name on =>
    have hname := number?_eq_none hc.features (by decide) h
    simp only [apply, withFeatureNamed, hname]

theorem foldl_of_unchanged {α : Type} {f : Config → α → Config} {xs : List α}
    (h : ∀ x ∈ xs, f c x = c) : xs.foldl f c = c := by
  induction xs with
  | nil => rfl
  | cons x xs ih =>
    rw [List.foldl_cons, h x (by simp)]
    exact ih fun y hy => h y (by simp [hy])

theorem withFlags_of_unknown (hc : c.Standard) {names : List String}
    (h : ∀ name ∈ names, (Flag.ofText ("-" ++ name)).Unknown) : c.withFlags names = c := by
  rw [withFlags_eq]
  refine foldl_of_unchanged fun name hname => apply_of_unknown hc (h name ?_)
  rcases List.mem_append.mp hname with hmem | hmem
  · exact (List.mem_filter.mp hmem).1
  · exact (List.mem_filter.mp hmem).1

theorem withDirective_of_unknown (hc : c.Standard) {text : String}
    (h : ∀ word ∈ Text.words text, (Flag.ofText word).Unknown) : c.withDirective text = c :=
  foldl_of_unchanged fun word hword => apply_of_unknown hc (h word hword)

theorem withProfile_of_notMem {name : String} (h : name ∉ profiles) :
    c.withProfile name = ({ c with profile := name }, .error ⟨name⟩) := by
  simp only [profiles, List.mem_cons, List.not_mem_nil, or_false, not_or] at h
  rw [withProfile]
  · exact h.1
  · exact h.2

/-- An error is returned for the profiles that do not exist and for no others. -/
theorem withProfile_result (c : Config) (name : String) :
    (c.withProfile name).2 = if name ∈ profiles then .ok () else .error ⟨name⟩ := by
  split
  · next hmem =>
    simp only [profiles, List.mem_cons, List.not_mem_nil, or_false] at hmem
    rcases hmem with rfl | rfl
    · rfl
    · rfl
  · next hmem => rw [withProfile_of_notMem hmem]

/-- **A refused change** leaves a configuration as it is but for the name of a profile. -/
theorem change_of_refused (hc : c.Standard) {s : Change} (h : s.Refused) :
    (c.change platform s).1 = { c with profile := s.profile?.getD c.profile } := by
  cases s with
  | target => exact h.elim
  | feature number on =>
    rw [change, withFeature, Switches.set_of_none (hc.features.info?_eq_none h)]
    rfl
  | warning number on =>
    rw [change, withWarning, Switches.set_of_none (hc.warnings.info?_eq_none h)]
    rfl
  | profile name => rw [change, withProfile_of_notMem h]; rfl
  | flag text => exact apply_of_unknown hc h
  | flags names => exact withFlags_of_unknown hc h
  | directive text => exact withDirective_of_unknown hc h

end Refused

/-! ## The name of the profile -/

theorem profile_apply (c : Config) (f : Flag) : (c.apply f).profile = c.profile := by
  cases f with
  | allWarnings on => rfl
  | warning name on =>
    rw [apply, withWarningNamed]
    split
    · split <;> rfl
    · split <;> rfl
  | feature name on =>
    rw [apply, withFeatureNamed]
    split <;> rfl

theorem profile_foldl {α : Type} {f : Config → α → Config}
    (hf : ∀ c x, (f c x).profile = c.profile) (xs : List α) (c : Config) :
    (xs.foldl f c).profile = c.profile := by
  induction xs generalizing c with
  | nil => rfl
  | cons x xs ih => rw [List.foldl_cons, ih, hf]

theorem profile_withProfile (c : Config) (name : String) :
    (c.withProfile name).1.profile = name := by
  unfold withProfile
  split <;> rfl

/-- Only a change of the profile changes its name, whether the profile exists or not. -/
theorem profile_change (c : Config) (s : Change) :
    (c.change platform s).1.profile = s.profile?.getD c.profile := by
  cases s with
  | target os arch name =>
    rw [change, withTarget]
    split <;> rfl
  | feature | warning => rfl
  | profile name => exact profile_withProfile c name
  | flag text => exact profile_apply c _
  | flags names =>
    rw [change, withFlags_eq]
    exact profile_foldl (fun c name => profile_apply c _) _ c
  | directive text => exact profile_foldl (fun c word => profile_apply c _) _ c

/-- **The profile is the last one asked for.** -/
theorem profile_changed (c : Config) (changes : List Change) :
    (c.changed platform changes).profile =
      (changes.filterMap Change.profile?).getLast?.getD c.profile := by
  induction changes generalizing c with
  | nil => rfl
  | cons s changes ih =>
    rw [changed, List.foldl_cons, ← changed, ih, profile_change, List.filterMap_cons]
    cases s.profile? with
    | none => rfl
    | some name =>
      rw [List.getLast?_cons]
      rfl

/-- Of names one after the other, the last is empty or the last that is the name of a profile
exactly if it is the name of a profile or empty. -/
theorem getLast?_profile (names : List String) :
    (names.getLast?.getD "" = "" ∨
      some (names.getLast?.getD "") = (names.filter (· ∈ profiles)).getLast?) ↔
      names.getLast?.getD "" ∈ "" :: profiles := by
  rw [List.mem_cons]
  refine or_congr_right ?_
  constructor
  · intro h
    have hmem := List.mem_of_getLast? h.symm
    simpa using (List.mem_filter.mp hmem).2
  · intro h
    cases hlast : names.getLast? with
    | none =>
      rw [hlast] at h
      exact absurd h (by decide)
    | some name =>
      rw [hlast, Option.getD_some] at h
      obtain ⟨front, rfl⟩ := List.getLast?_eq_some_iff.mp hlast
      rw [List.filter_append, List.filter_cons_of_pos (by simpa using h)]
      simp

/-- **Changes from the start.**  The tables keep the entries and the names of a new configuration,
and a name is looked up to the number of its entry.  A profile is an error if it does not exist, and
then as for every refused change all is kept but the name of the profile.  This name is the last
one asked for; it is empty or that of the last profile that was applied exactly if the last one
asked for exists or is empty. -/
theorem changed_profile (platform : String → String → String) (changes : List Change) :
    let c := changed platform {} changes
    let asked := changes.filterMap Change.profile?
    (c.features.labels = (Switches.ofInfos Feature.infos).labels ∧
      c.features.numbers = (Switches.ofInfos Feature.infos).numbers ∧
      c.warnings.labels = (Switches.ofInfos Warning.infos).labels ∧
      c.warnings.numbers = (Switches.ofInfos Warning.infos).numbers) ∧
    (∀ name number,
      (c.features.number? name = some number ↔
        ∃ e ∈ c.features.labels, e.1 = number ∧ e.2.1 = name) ∧
      (c.warnings.number? name = some number ↔
        ∃ e ∈ c.warnings.labels, e.1 = number ∧ e.2.1 = name)) ∧
    (∀ name, (c.withProfile name).2 = if name ∈ profiles then .ok () else .error ⟨name⟩) ∧
    (∀ s : Change, s.Refused →
      (c.change platform s).1 = { c with profile := s.profile?.getD c.profile }) ∧
    c.profile = asked.getLast?.getD "" ∧
    ((c.profile = "" ∨ some c.profile = (asked.filter (· ∈ profiles)).getLast?) ↔
      asked.getLast?.getD "" ∈ "" :: profiles) := by
  intro c asked
  have hc : c.Standard := standard_changed platform changes
  have hprofile : c.profile = asked.getLast?.getD "" := profile_changed {} changes
  refine ⟨⟨hc.features.labels, hc.features.numbers, hc.warnings.labels, hc.warnings.numbers⟩,
    fun name number => ⟨hc.features.number?_eq_some (by decide),
      hc.warnings.number?_eq_some (by decide)⟩,
    withProfile_result c, fun s hs => change_of_refused hc hs, hprofile, ?_⟩
  rw [hprofile]
  exact getLast?_profile asked

/-- An unknown flag leaves a configuration as it is, an unknown profile all but the name. -/
theorem toscProfile_refused :
    let platform := fun _ _ => "amd64_sysv"
    let c := changed platform {}
      [.target "linux" "amd64" "", .profile "tosc", .feature 1 false, .feature 7 true]
    (Change.directive "-Wbogus -Fno-bogus").Refused ∧ (Change.profile "c++").Refused ∧
    c.target = "amd64_sysv" ∧
    (c.change platform (.directive "-Wbogus -Fno-bogus")).1 = c ∧
    (c.change platform (.profile "c++")).1 = { c with profile := "c++" } := by
  intro platform c
  have hflags : (Change.directive "-Wbogus -Fno-bogus").Refused := by decide
  have hprofile : (Change.profile "c++").Refused := by decide
  have htarget : c.target = "amd64_sysv" := rfl
  have hrefused : ∀ s : Change, s.Refused →
      (c.change platform s).1 = { c with profile := s.profile?.getD c.profile } :=
    (changed_profile platform _).2.2.2.1
  -- What comes of the changes is not looked into any further.
  clear_value c
  exact ⟨hflags, hprofile, htarget, hrefused _ hflags, hrefused _ hprofile⟩

/-- **A profile that does not exist is an error and leaves its name behind**, so that the name is
neither empty nor that of the profile that was applied. -/
theorem missingProfile_kept :
    let platform := fun _ _ => "amd64_sysv"
    let c := changed platform {} [.profile "reference"]
    (c.withProfile "c++").2 = .error ⟨"c++"⟩ ∧ (c.withProfile "c++").1 ≠ c ∧
    c.profile = "reference" ∧
    (changed platform {} [.profile "reference", .profile "c++"]).profile = "c++" := by
  refine ⟨rfl, by decide, rfl, rfl⟩

end Config

end Isel.Settings
