import Isel.Settings.Flag

/-!
# Tables of switches

Switching changes what is on and off, and nothing else: the entries of a table keep their numbers,
names and descriptions, and names keep their numbers (`Switches.Of`).  `Config.Standard` says so of
the two tables of a configuration.  In such a configuration every feature and every warning has its
entry, so that what is switched on is on.
-/

namespace Isel.Settings

/-! ## One table -/

namespace Switches

variable {s : Switches} {infos : List Info}

theorem isOn_set (s : Switches) (on : Bool) (number n : Int) :
    (s.set on number).isOn n = if n = number then (s.info? n).isSome && on else s.isOn n := by
  rw [isOn, info?_set]
  split
  · cases s.info? n <;> rfl
  · rfl

theorem set_of_none {number : Int} (h : s.info? number = none) (on : Bool) :
    s.set on number = s := by
  rw [set, h]

theorem isSome_info?_set (s : Switches) (on : Bool) (number n : Int) :
    ((s.set on number).info? n).isSome = (s.info? n).isSome := by
  rw [info?_set]
  split
  · rw [Option.isSome_map]
  · rfl

theorem isOn_setEach (on : Bool) {numbers : List Int} (n : Int)
    (h : ∀ number ∈ numbers, (s.info? number).isSome = true) :
    (s.setEach on numbers).isOn n = if n ∈ numbers then on else s.isOn n := by
  induction numbers generalizing s with
  | nil => rfl
  | cons number numbers ih =>
    rw [List.forall_mem_cons] at h
    have hrest : ∀ k ∈ numbers, ((s.set on number).info? k).isSome = true := by
      intro k hk
      rw [isSome_info?_set, h.2 k hk]
    rw [setEach, List.foldl_cons, ← setEach, ih hrest, isOn_set]
    by_cases hn : n = number
    · subst hn
      simp [h.1]
    · simp [hn]

theorem labels_set (s : Switches) (on : Bool) (number : Int) :
    (s.set on number).labels = s.labels := by
  unfold set
  split
  · next info hinfo => exact Assoc.map_put hinfo rfl
  · rfl

theorem numbers_set (s : Switches) (on : Bool) (number : Int) :
    (s.set on number).numbers = s.numbers := by
  unfold set
  split <;> rfl

/-- The table is a new one of these entries but for what is on. -/
structure Of (infos : List Info) (s : Switches) : Prop where
  labels : s.labels = (ofInfos infos).labels
  numbers : s.numbers = (ofInfos infos).numbers

theorem Of.set (h : s.Of infos) (on : Bool) (number : Int) : (s.set on number).Of infos :=
  ⟨(labels_set s on number).trans h.labels, (numbers_set s on number).trans h.numbers⟩

theorem Of.setEach (h : s.Of infos) (on : Bool) (numbers : List Int) :
    (s.setEach on numbers).Of infos := by
  induction numbers generalizing s with
  | nil => exact h
  | cons number numbers ih => exact ih (h.set on number)

theorem isSome_info? (s : Switches) (number : Int) :
    (s.info? number).isSome = (s.labels.lookup number).isSome := by
  rw [labels, Assoc.lookup_map_snd (fun info : Info => (info.name, info.description)),
    Option.isSome_map]
  rfl

theorem Of.isSome_info? (h : s.Of infos) (number : Int) :
    (s.info? number).isSome = ((ofInfos infos).info? number).isSome := by
  rw [Switches.isSome_info?, Switches.isSome_info?, h.labels]

theorem Of.info?_eq_none (h : s.Of infos) {number : Int}
    (hnumber : number < 0 ∨ (infos.length : Int) ≤ number) : s.info? number = none := by
  have hnone : (ofInfos infos).info? number = none := by
    refine List.lookup_eq_none_iff.mpr fun e he => ?_
    obtain ⟨i, hi, rfl⟩ := List.mem_mapIdx.mp he
    simp only [bne_iff_ne]
    omega
  rw [← Option.not_isSome_iff_eq_none, h.isSome_info?, hnone]
  simp

theorem lookup_foldl_put {entries : List (Int × Info)} (h : (entries.map (·.2.name)).Nodup)
    (numbers : List (String × Int)) {name : String} {number : Int} :
    (entries.foldl (fun numbers e => Assoc.put e.2.name e.1 numbers) numbers).lookup name =
        some number ↔
      (∃ e ∈ entries, e.1 = number ∧ e.2.name = name) ∨
        name ∉ entries.map (·.2.name) ∧ numbers.lookup name = some number := by
  induction entries generalizing numbers with
  | nil => simp
  | cons e entries ih =>
    rw [List.map_cons, List.nodup_cons] at h
    rw [List.foldl_cons, ih h.2]
    by_cases hname : name = e.2.name
    · subst hname
      have hfirst : ¬∃ a ∈ entries, a.1 = number ∧ a.2.name = e.2.name := by
        rintro ⟨a, ha, -, heq⟩
        exact h.1 (List.mem_map.mpr ⟨a, ha, heq⟩)
      simp [Assoc.lookup_put_self, h.1, hfirst]
    · rw [Assoc.lookup_put_ne hname]
      simp [hname, Ne.symm hname]

/-- **A name is looked up to the number of its entry.** -/
theorem Of.number?_eq_some (h : s.Of infos) (hnames : (infos.map Info.name).Nodup) {name : String}
    {number : Int} :
    s.number? name = some number ↔ ∃ e ∈ s.labels, e.1 = number ∧ e.2.1 = name := by
  have hentries : ((ofInfos infos).entries.map (·.2.name)).Nodup := by
    have hmap : (ofInfos infos).entries.map (·.2.name) = infos.map Info.name := by
      refine List.ext_getElem? fun i => ?_
      simp [ofInfos, Function.comp_def]
    rwa [hmap]
  rw [number?, h.numbers, h.labels]
  refine (lookup_foldl_put hentries []).trans ((or_iff_left (by simp)).trans ?_)
  constructor
  · rintro ⟨e, he, hnumber, hname⟩
    exact ⟨_, List.mem_map_of_mem he, hnumber, hname⟩
  · rintro ⟨_, hlabel, hnumber, hname⟩
    obtain ⟨e, he, rfl⟩ := List.mem_map.mp hlabel
    exact ⟨e, he, hnumber, hname⟩

end Switches

/-! ## Configurations -/

theorem Feature.number_inj {f g : Feature} : f.number = g.number ↔ f = g := by
  cases f <;> cases g <;> decide

namespace Warning

theorem number_inj {v w : Warning} : v.number = w.number ↔ v = w := by
  cases v <;> cases w <;> decide

theorem name_inj {v w : Warning} : v.name = w.name ↔ v = w := by
  cases v <;> cases w <;> decide

end Warning

namespace Config

/-- The tables are those of a new configuration but for what is on. -/
structure Standard (c : Config) : Prop where
  features : c.features.Of Feature.infos
  warnings : c.warnings.Of Warning.infos

theorem standard_new : Standard {} := ⟨⟨rfl, rfl⟩, ⟨rfl, rfl⟩⟩

namespace Standard

variable {c : Config}

theorem isSome_warning (h : c.Standard) (w : Warning) :
    (c.warnings.info? w.number).isSome = true := by
  rw [h.warnings.isSome_info?]
  cases w <;> rfl

theorem number?_warning (h : c.Standard) {name : String} {number : Int} :
    c.warnings.number? name = some number ↔ ∃ w : Warning, w.name = name ∧ w.number = number := by
  rw [h.warnings.number?_eq_some (by decide), h.warnings.labels]
  constructor
  · have hwarnings : ∀ e ∈ (Switches.ofInfos Warning.infos).labels,
        ∃ w ∈ Warning.all, w.name = e.2.1 ∧ w.number = e.1 := by decide
    rintro ⟨e, he, rfl, rfl⟩
    obtain ⟨w, -, hw⟩ := hwarnings e he
    exact ⟨w, hw⟩
  · rintro ⟨w, rfl, rfl⟩
    cases w <;> decide

theorem withFeature (h : c.Standard) (number : Int) (on : Bool) :
    (c.withFeature number on).Standard := ⟨h.features.set on number, h.warnings⟩

theorem withWarning (h : c.Standard) (number : Int) (on : Bool) :
    (c.withWarning number on).Standard := ⟨h.features, h.warnings.set on number⟩

theorem apply (h : c.Standard) (f : Flag) : (c.apply f).Standard := by
  cases f with
  | allWarnings on => exact ⟨h.features, h.warnings.setEach on _⟩
  | warning name on =>
    rw [Config.apply, withWarningNamed]
    split
    · split
      · exact ⟨h.features, h.warnings.setEach true _⟩
      · exact h.withWarning _ _
    · split
      · exact h.withWarning _ _
      · exact h
  | feature name on =>
    rw [Config.apply, withFeatureNamed]
    split
    · exact h.withFeature _ _
    · exact h

theorem foldl {α : Type} {f : Config → α → Config} (hf : ∀ c x, c.Standard → (f c x).Standard)
    (h : c.Standard) (xs : List α) : (xs.foldl f c).Standard := by
  induction xs generalizing c with
  | nil => exact h
  | cons x xs ih => exact ih (hf c x h)

theorem withProfile (h : c.Standard) (name : String) : (c.withProfile name).1.Standard := by
  have hnamed : Standard { c with profile := name } := ⟨h.features, h.warnings⟩
  have hsettings : ∀ value, (withSettings { c with profile := name } value).Standard :=
    fun value => hnamed.foldl (fun c s hc => hc.withFeature s.feature.number (value s)) _
  unfold Config.withProfile
  split
  · exact (hsettings _).withWarning _ _
  · exact hsettings _
  · exact hnamed

theorem withTarget (h : c.Standard) (platform : String → String → String)
    (os arch target : String) : (c.withTarget platform os arch target).1.Standard := by
  rw [Config.withTarget]
  split <;> exact ⟨h.features, h.warnings⟩

end Standard

theorem uses_withFeature (c : Config) (f g : Feature) (on : Bool) :
    (c.withFeature f.number on).uses g =
      if g = f then (c.features.info? f.number).isSome && on else c.uses g := by
  rw [uses, withFeature, Switches.isOn_set]
  simp only [Feature.number_inj]
  split
  · next h => rw [h]
  · rfl

theorem warns_withWarning {c : Config} (h : c.Standard) (v w : Warning) (on : Bool) :
    (c.withWarning v.number on).warns w = if w = v then on else c.warns w := by
  rw [warns, withWarning, Switches.isOn_set, h.isSome_warning, Bool.true_and]
  simp only [Warning.number_inj]
  rfl

theorem warns_setEach {c : Config} (h : c.Standard) (vs : List Warning) (w : Warning) (on : Bool) :
    warns { c with warnings := c.warnings.setEach on (vs.map Warning.number) } w =
      if w ∈ vs then on else c.warns w := by
  have hentries : ∀ number ∈ vs.map Warning.number, (c.warnings.info? number).isSome = true :=
    List.forall_mem_map.mpr fun v _ => h.isSome_warning v
  rw [warns, Switches.isOn_setEach on w.number hentries]
  simp only [List.mem_map, Warning.number_inj, exists_eq_right]
  rfl

end Config

end Isel.Settings
