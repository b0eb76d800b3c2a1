import FluentMigration.Proofs.Loading
/-!
What a registration that succeeds does to each part of a context (`adds_iff`). The source files that
are needed afterwards are looked for, and of those not read before the ones that can be are read.
All else happens at the target: nothing changes at another one (`Enters.agreeOn_other`), and what
comes of the target depends on what was there alone (`Enters.agreeOn_target`). After it no file is
left to read (`Adds.complete`), and so it stays while the directory does (`Steady.complete`).
-/

namespace FluentMigration

open Fluent (Resource)

mutual

theorem map_ref_fluentSources_subset (t : Transform) :
    t.fluentSources.map FluentSource.ref ⊆ t.sources := by
  cases t with
  | text value => exact List.Subset.refl _
  | expression content => exact List.Subset.refl _
  | pattern value => exact List.Subset.refl _
  | select selector variants => exact map_ref_fluentSourcesOfVariants_subset variants
  | copy source => exact List.nil_subset _
  | copyPattern source => exact List.Subset.refl _
  | concat parts => exact map_ref_fluentSourcesOfParts_subset parts
  | replace base replacements printf =>
    exact List.subset_append_of_subset_left _
      (map_ref_fluentSourcesOfReplacements_subset replacements)
  | plurals source selector ofForm => exact List.nil_subset _
  | transformPattern source visitor => exact List.Subset.refl _
termination_by structural t

theorem map_ref_fluentSourcesOfVariants_subset (vs : List TransformVariant) :
    (Transform.fluentSourcesOfVariants vs).map FluentSource.ref ⊆
      Transform.sourcesOfVariants vs := by
  cases vs with
  | nil => exact List.Subset.refl _
  | cons v rest =>
    obtain ⟨key, value, isDefault⟩ := v
    rw [Transform.fluentSourcesOfVariants, List.map_append]
    exact List.append_subset.2
      ⟨List.subset_append_of_subset_left _ (map_ref_fluentSources_subset value),
        List.subset_append_of_subset_right _ (map_ref_fluentSourcesOfVariants_subset rest)⟩
termination_by structural vs

theorem map_ref_fluentSourcesOfParts_subset (parts : List Transform) :
    (Transform.fluentSourcesOfParts parts).map FluentSource.ref ⊆
      Transform.sourcesOfParts parts := by
  cases parts with
  | nil => exact List.Subset.refl _
  | cons part rest =>
    rw [Transform.fluentSourcesOfParts, List.map_append]
    exact List.append_subset.2
      ⟨List.subset_append_of_subset_left _ (map_ref_fluentSources_subset part),
        List.subset_append_of_subset_right _ (map_ref_fluentSourcesOfParts_subset rest)⟩
termination_by structural parts

theorem map_ref_fluentSourcesOfReplacements_subset (rs : List Replacement) :
    (Transform.fluentSourcesOfReplacements rs).map FluentSource.ref ⊆
      Transform.sourcesOfReplacements rs := by
  cases rs with
  | nil => exact List.Subset.refl _
  | cons r rest =>
    obtain ⟨placeholder, value⟩ := r
    rw [Transform.fluentSourcesOfReplacements, List.map_append]
    exact List.append_subset.2
      ⟨List.subset_append_of_subset_left _ (map_ref_fluentSources_subset value),
        List.subset_append_of_subset_right _ (map_ref_fluentSourcesOfReplacements_subset rest)⟩
termination_by structural rs

end

theorem Template.ref_mem_dependencies {t : Template} {source : FluentSource}
    (h : source ∈ t.fluentSources) : source.ref ∈ t.dependencies := by
  obtain ⟨x, hx, hsource⟩ := List.mem_flatMap.1 h
  exact List.mem_eraseDups.2 (List.mem_flatMap.2
    ⟨x, hx, map_ref_fluentSources_subset x (List.mem_map_of_mem hsource)⟩)

namespace Context

variable {c c' d d' : Context} {r : Registration} {path : String}

def found? (c : Context) (path : String) : Option SourceFile :=
  match c.localization.read path with
  | .ok text => parseSource path text
  | .error _ => none

theorem found?_congr (h : c.localization = d.localization) : c.found? path = d.found? path := by
  rw [found?, found?, h]

theorem settled_iff : c.Settled path ↔ (c.sources.get? path).isSome ∨ c.found? path = none := by
  refine or_congr Iff.rfl ?_
  unfold found?
  split
  · next text hread =>
    rw [Option.eq_none_iff_forall_ne_some]
    constructor
    · exact fun h file => h text file hread
    · intro h other file hother
      cases hread.symm.trans hother
      exact h file
  · next reason hread => simp [hread]

theorem get?_load (c : Context) (first path : String) :
    (c.load first).sources.get? path =
      (c.sources.get? path).or (if path = first then c.found? path else none) := by
  by_cases hfirst : path = first
  · subst hfirst
    unfold load found? Table.contains
    cases hold : c.sources.get? path with
    | some file => simp [hold]
    | none =>
      cases hread : c.localization.read path with
      | error reason => simp [hold]
      | ok text => cases hparse : parseSource path text <;> simp [hold, hparse]
  · simp [get?_load_of_ne c hfirst, hfirst]

theorem get?_foldl_load (paths : List String) (c : Context) (path : String) :
    (paths.foldl load c).sources.get? path =
      (c.sources.get? path).or (if path ∈ paths then c.found? path else none) := by
  induction paths generalizing c with
  | nil => simp
  | cons first rest ih =>
    have hfound : (c.load first).found? path = c.found? path :=
      found?_congr (grows_load c first).localization
    rw [List.foldl_cons, ih, get?_load, hfound, Option.or_assoc]
    congr 1
    by_cases hfirst : path = first
    · cases hfile : c.found? path <;> simp [hfirst]
    · simp [hfirst]

theorem missingPattern?_eq_none_iff {templates : List Template} :
    c.missingPattern? templates = none ↔
      ∀ t ∈ templates, ∀ source ∈ t.fluentSources, ∀ file,
        c.sources.get? source.path = some (.fluent file) →
          (file.pattern? source.key).isSome := by
  simp only [missingPattern?, List.find?_eq_none, List.forall_mem_map, List.forall_mem_flatMap]
  refine forall₂_congr fun t _ => forall₂_congr fun source _ => ?_
  simp only [FluentSource.ref]
  cases c.sources.get? source.path with
  | none => simp
  | some file => cases file <;> simp [Option.isSome_iff_ne_none]

theorem missingPattern?_append {a b : List Template} :
    c.missingPattern? (a ++ b) = none ↔
      c.missingPattern? a = none ∧ c.missingPattern? b = none := by
  simp only [missingPattern?_eq_none_iff, List.forall_mem_append]

theorem neededPaths_congr (h : c.dependencies = d.dependencies) :
    c.neededPaths = d.neededPaths := by
  rw [neededPaths, neededPaths, h]

theorem mem_neededPaths_iff :
    path ∈ c.neededPaths ↔ ∃ target key sources, c.dependenciesOf target key = some sources ∧
      ∃ source ∈ sources, source.path = path := by
  constructor
  · intro h
    rw [neededPaths, Table.mem_keys_iff, Table.get?_ofList, Option.isSome_map,
      List.find?_isSome] at h
    obtain ⟨entry, hentry, hpath⟩ := h
    obtain ⟨⟨target, keys⟩, hkeys, hentry⟩ := List.mem_flatMap.1 (List.mem_reverse.1 hentry)
    obtain ⟨⟨key, sources⟩, hsources, hentry⟩ := List.mem_flatMap.1 hentry
    obtain ⟨source, hsource, rfl⟩ := List.mem_map.1 hentry
    refine ⟨target, key, sources, ?_, source, hsource, eq_of_beq hpath⟩
    rw [dependenciesOf, Table.mem_entries_iff.1 hkeys]
    exact Table.mem_entries_iff.1 hsources
  · rintro ⟨target, key, sources, hnoted, source, hsource, rfl⟩
    exact mem_neededPaths hnoted hsource

structure SameSettings (c d : Context) : Prop where
  locale : c.locale = d.locale
  categories : c.categories = d.categories
  enforceTranslated : c.enforceTranslated = d.enforceTranslated
  reference : c.reference = d.reference
  localization : c.localization = d.localization

theorem SameSettings.symm (h : c.SameSettings d) : d.SameSettings c :=
  ⟨h.locale.symm, h.categories.symm, h.enforceTranslated.symm, h.reference.symm,
    h.localization.symm⟩

theorem SameSettings.trans {e : Context} (h : c.SameSettings d) (h' : d.SameSettings e) :
    c.SameSettings e :=
  ⟨h.locale.trans h'.locale, h.categories.trans h'.categories,
    h.enforceTranslated.trans h'.enforceTranslated, h.reference.trans h'.reference,
    h.localization.trans h'.localization⟩

theorem SameSettings.eq (h : c.SameSettings d) :
    c = { d with
      sources := c.sources, references := c.references, targets := c.targets
      templates := c.templates, dependencies := c.dependencies } := by
  obtain ⟨hlocale, hcategories, henforce, hreference, hlocalization⟩ := h
  cases c
  simp_all

/-- The references once a target has its shape: that of its templates, or that of its reference
file, which is read once. -/
inductive Shapes (c : Context) (r : Registration) (references : Table Resource) : Prop where
  | templates (hnone : c.reference = none)
      (h : references = c.references.modify r.target .empty
        fun file => ⟨file.body ++ r.templates.map Template.skeleton⟩)
  | old {directory : Directory} (hdirectory : c.reference = some directory)
      (hold : c.references.contains r.target = true) (h : references = c.references)
  | read {directory : Directory} {text : String} (hdirectory : c.reference = some directory)
      (hnew : c.references.contains r.target = false)
      (hread : directory.read r.reference = .ok text)
      (h : references = c.references.insert r.target (.parse text))

theorem addReference_iff :
    c.addReference r.target r.reference r.templates = .ok c' ↔
      ∃ references, c.Shapes r references ∧ c' = { c with references } := by
  constructor
  · intro h
    unfold addReference at h
    split at h
    · next hnone =>
      cases h
      exact ⟨_, .templates hnone rfl, rfl⟩
    · next directory hdirectory =>
      split at h
      · next hold =>
        cases h
        exact ⟨_, .old hdirectory hold rfl, rfl⟩
      · next hnew =>
        split at h
        · next text hread =>
          cases h
          exact ⟨_, .read hdirectory (Bool.eq_false_iff.2 hnew) hread rfl, rfl⟩
        · cases h
  · rintro ⟨references, hshapes, rfl⟩
    cases hshapes with
    | templates hnone h => simp [addReference, hnone, h]
    | old hdirectory hold h =>
      unfold addReference
      split
      · next hnone => rw [hnone] at hdirectory; cases hdirectory
      · rw [if_pos hold, h]
    | read hdirectory hnew hread h => simp [addReference, hdirectory, hnew, hread, h]

/-- The targets once one of them is kept: its file is read once, and need not be there. -/
inductive Keeps (c : Context) (target : String) (targets : Table Resource) : Prop where
  | old (hold : c.targets.contains target = true) (h : targets = c.targets)
  | read {current : Resource} (hnew : c.targets.contains target = false)
      (hread : c.readTarget target = .ok current) (h : targets = c.targets.insert target current)

theorem addTarget_iff {target : String} :
    c.addTarget target = .ok c' ↔ ∃ targets, c.Keeps target targets ∧ c' = { c with targets } := by
  constructor
  · intro h
    unfold addTarget at h
    split at h
    · next hold =>
      cases h
      exact ⟨_, .old hold rfl, rfl⟩
    · next hnew =>
      obtain ⟨current, hread, h⟩ := bind_eq_ok.1 h
      cases h
      exact ⟨_, .read (Bool.eq_false_iff.2 hnew) hread rfl, rfl⟩
  · rintro ⟨targets, hkeeps, rfl⟩
    cases hkeeps with
    | old hold h =>
      rw [addTarget, h]
      exact if_pos hold
    | read hnew hread h => simp [addTarget, hnew, hread, h]

theorem Keeps.congr {target : String} {targets : Table Resource} (h : c.Keeps target targets)
    (hlocalization : d.localization = c.localization) (htargets : d.targets = c.targets) :
    d.Keeps target targets := by
  cases h with
  | old hold h => exact .old (htargets ▸ hold) (h.trans htargets.symm)
  | read hnew hread h =>
    refine .read (htargets ▸ hnew) (?_ : d.readTarget target = _) (htargets ▸ h)
    rw [← hread, readTarget, readTarget, hlocalization]

theorem expectsFiles_eq_false_iff :
    c.expectsFiles = false ↔ ∀ path ∈ c.neededPaths, c.sources.contains path = true := by
  simp [expectsFiles]

/-- What a registration enters into a context, the source files apart. -/
structure Enters (c : Context) (r : Registration) (c' : Context) : Prop where
  settings : c'.SameSettings c
  references : c.Shapes r c'.references
  dependencies : c'.dependencies = (c.addDependencies r.target r.templates).dependencies
  templates : c'.templates = c.templates.modify r.target [] (· ++ r.templates)
  targets : c.Keeps r.target c'.targets

/-- What a registration that succeeds does to each part of a context. -/
structure Adds (c : Context) (r : Registration) (c' : Context) : Prop extends Enters c r c' where
  sources : ∀ path, c'.sources.get? path =
    (c.sources.get? path).or (if path ∈ c'.neededPaths then c.found? path else none)
  someFile : (∀ path ∈ c'.neededPaths, c.sources.contains path = true) ∨ c'.sources.isEmpty = false
  patterns : c'.missingPattern? r.templates = none

theorem Adds.of_ok (h : c.addTransforms r.target r.reference r.templates = (c', .ok ())) :
    c.Adds r c' := by
  unfold addTransforms at h
  split at h
  · cases h
  · next shaped hshaped =>
    obtain ⟨references, hshapes, rfl⟩ := addReference_iff.1 hshaped
    have hread := get?_foldl_load
      (addDependencies { c with references } r.target r.templates).neededPaths
      (addDependencies { c with references } r.target r.templates)
    obtain ⟨sources, hloaded⟩ :=
      loads_eq (addDependencies { c with references } r.target r.templates).neededPaths
        (addDependencies { c with references } r.target r.templates)
    rw [hloaded] at hread
    rw [← loadNeeded] at hloaded
    simp only [hloaded] at h
    split at h
    · cases h
    · next hsome =>
      split at h
      · cases h
      · next hpatterns =>
        split at h
        · cases h
        · next kept hkept =>
          obtain ⟨targets, hkeeps, rfl⟩ := addTarget_iff.1 hkept
          cases h
          rw [Bool.not_eq_true, Bool.and_eq_false_iff, expectsFiles_eq_false_iff] at hsome
          exact
            { settings := ⟨rfl, rfl, rfl, rfl, rfl⟩
              references := hshapes
              dependencies := rfl
              templates := rfl
              targets := hkeeps.congr rfl rfl
              sources := hread
              someFile := hsome
              patterns := hpatterns }

theorem Adds.ok (h : c.Adds r c') :
    c.addTransforms r.target r.reference r.templates = (c', .ok ()) := by
  have hshaped := addReference_iff.2 ⟨_, h.references, rfl⟩
  have hnoted : addDependencies { c with references := c'.references } r.target r.templates =
      { c with references := c'.references, dependencies := c'.dependencies } := by
    rw [h.dependencies]
    rfl
  have hloaded : loadNeeded { c with
      references := c'.references
      dependencies := c'.dependencies } = { c with
        references := c'.references
        sources := c'.sources
        dependencies := c'.dependencies } := by
    have hread := get?_foldl_load c'.neededPaths
      { c with references := c'.references, dependencies := c'.dependencies }
    obtain ⟨sources, hloads⟩ := loads_eq c'.neededPaths
      { c with references := c'.references, dependencies := c'.dependencies }
    rw [hloads] at hread
    have hsources : sources = c'.sources :=
      Table.ext_get? fun path => (hread path).trans (h.sources path).symm
    exact hloads.trans (by rw [hsources])
  have hfiles : (expectsFiles { c with
      references := c'.references
      dependencies := c'.dependencies } && c'.sources.isEmpty) = false := by
    rw [Bool.and_eq_false_iff, expectsFiles_eq_false_iff]
    exact h.someFile
  have hpatterns : missingPattern? { c with
      references := c'.references
      sources := c'.sources
      dependencies := c'.dependencies } r.templates = none := h.patterns
  have hkept : (addTemplates { c with
      references := c'.references
      sources := c'.sources
      dependencies := c'.dependencies } r.target r.templates).addTarget r.target = .ok c' :=
    addTarget_iff.2 ⟨c'.targets, h.targets.congr rfl rfl, h.settings.eq.trans (by
      rw [h.templates]
      rfl)⟩
  simp only [addTransforms, hshaped, hnoted, hloaded, hfiles, hpatterns, hkept]
  rfl

/-- A registration succeeds exactly if it can do all it does to the parts of the context. -/
theorem adds_iff :
    c.addTransforms r.target r.reference r.templates = (c', .ok ()) ↔ c.Adds r c' :=
  ⟨.of_ok, Adds.ok⟩

structure AgreeOn (path : String) (c d : Context) : Prop where
  references : c.references.get? path = d.references.get? path
  targets : c.targets.get? path = d.targets.get? path
  templates : c.templates.get? path = d.templates.get? path
  dependencies : c.dependencies.get? path = d.dependencies.get? path

theorem AgreeOn.symm (h : AgreeOn path c d) : AgreeOn path d c :=
  ⟨h.references.symm, h.targets.symm, h.templates.symm, h.dependencies.symm⟩

theorem AgreeOn.trans {e : Context} (h : AgreeOn path c d) (h' : AgreeOn path d e) :
    AgreeOn path c e :=
  ⟨h.references.trans h'.references, h.targets.trans h'.targets, h.templates.trans h'.templates,
    h.dependencies.trans h'.dependencies⟩

/-- Contexts that have the same at all targets differ in their source files at most. -/
theorem eq_of_agreeOn (hsettings : c.SameSettings d) (hagree : ∀ path, AgreeOn path c d) :
    c = { d with sources := c.sources } := by
  rw [hsettings.eq, Table.ext_get? fun path => (hagree path).references,
    Table.ext_get? fun path => (hagree path).targets,
    Table.ext_get? fun path => (hagree path).templates,
    Table.ext_get? fun path => (hagree path).dependencies]

theorem get?_addDependencies_of_ne {target : String} (templates : List Template)
    (hne : path ≠ target) :
    (c.addDependencies target templates).dependencies.get? path = c.dependencies.get? path := by
  induction templates generalizing c with
  | nil => rfl
  | cons t rest ih =>
    have hrest := @ih (c.addDependencies target [t])
    refine hrest.trans ?_
    simp [addDependencies, Table.get?_modify, hne]

theorem get?_addDependencies_congr {target : String} (templates : List Template)
    (h : c.dependencies.get? target = d.dependencies.get? target) :
    (c.addDependencies target templates).dependencies.get? target =
      (d.addDependencies target templates).dependencies.get? target := by
  induction templates generalizing c d with
  | nil => exact h
  | cons t rest ih =>
    refine @ih (c.addDependencies target [t]) (d.addDependencies target [t]) ?_
    simp [addDependencies, Table.get?_modify, h]

theorem Enters.agreeOn_other (h : c.Enters r c') (hne : path ≠ r.target) : AgreeOn path c' c where
  references := by
    cases h.references with
    | templates _ h => rw [h, Table.get?_modify, if_neg hne]
    | old _ _ h => rw [h]
    | read _ _ _ h => rw [h, Table.get?_insert_of_ne _ _ hne]
  targets := by
    cases h.targets with
    | old _ h => rw [h]
    | read _ _ h => rw [h, Table.get?_insert_of_ne _ _ hne]
  templates := by rw [h.templates, Table.get?_modify, if_neg hne]
  dependencies := by rw [h.dependencies, get?_addDependencies_of_ne _ hne]

theorem Enters.agreeOn_target (h : c.Enters r c') (h' : d.Enters r d')
    (hsettings : c.SameSettings d) (hagree : AgreeOn r.target c d) : AgreeOn r.target c' d' where
  references := by
    have hreference := hsettings.reference
    have hcontains : c.references.contains r.target = d.references.contains r.target :=
      congrArg Option.isSome hagree.references
    cases h.references with
    | templates hnone h =>
      cases h'.references with
      | templates _ h' => simp [h, h', Table.get?_modify, hagree.references]
      | old hdirectory _ _ => simp [hnone, ← hreference] at hdirectory
      | read hdirectory _ _ _ => simp [hnone, ← hreference] at hdirectory
    | old hdirectory hold h =>
      cases h'.references with
      | templates hnone _ => simp [hnone, hreference] at hdirectory
      | old _ _ h' => rw [h, h', hagree.references]
      | read _ hnew _ _ => simp [hold, ← hcontains] at hnew
    | read hdirectory hnew hread h =>
      cases h'.references with
      | templates hnone _ => simp [hnone, hreference] at hdirectory
      | old _ hold _ => simp [hnew, ← hcontains] at hold
      | read hdirectory' _ hread' h' =>
        cases hdirectory.symm.trans (hreference.trans hdirectory')
        cases hread.symm.trans hread'
        simp [h, h']
  targets := by
    have hcontains : c.targets.contains r.target = d.targets.contains r.target :=
      congrArg Option.isSome hagree.targets
    have hread : c.readTarget r.target = d.readTarget r.target := by
      rw [readTarget, readTarget, hsettings.localization]
    cases h.targets with
    | old hold h =>
      cases h'.targets with
      | old _ h' => rw [h, h', hagree.targets]
      | read hnew _ _ => simp [hold, ← hcontains] at hnew
    | read hnew hcurrent h =>
      cases h'.targets with
      | old hold _ => simp [hnew, ← hcontains] at hold
      | read _ hcurrent' h' =>
        cases (hcurrent.symm.trans hread).trans hcurrent'
        simp [h, h']
  templates := by
    rw [h.templates, h'.templates, Table.get?_modify, Table.get?_modify, hagree.templates]
  dependencies := by
    rw [h.dependencies, h'.dependencies, get?_addDependencies_congr _ hagree.dependencies]

/-- All files that are needed are settled. -/
def Complete (c : Context) : Prop := ∀ path ∈ c.neededPaths, c.Settled path

theorem Adds.complete (h : c.Adds r c') : c'.Complete := by
  intro path hpath
  rw [settled_iff, h.sources, if_pos hpath, found?_congr h.settings.localization]
  cases c.found? path with
  | none => exact .inr rfl
  | some file => exact .inl (by simp)

theorem Complete.mono (h : c.Complete) (hgrows : c.Grows c')
    (hdependencies : c'.dependencies = c.dependencies) : c'.Complete := by
  intro path hpath
  rw [neededPaths_congr hdependencies] at hpath
  exact (h path hpath).mono hgrows

theorem complete_loadNeeded (c : Context) : c.loadNeeded.Complete := by
  intro path hpath
  obtain ⟨sources, hloads⟩ := loads_eq c.neededPaths c
  have hsame : c.loadNeeded.neededPaths = c.neededPaths :=
    neededPaths_congr (by rw [loadNeeded, hloads])
  exact settled_loads (hsame ▸ hpath) c

theorem complete_addTransforms (h : c.Complete) (target reference : String)
    (templates : List Template) : (c.addTransforms target reference templates).1.Complete := by
  rcases c.addTransforms_cases target reference templates with
    ⟨e, hsame⟩ | ⟨references, targets, registered, hloaded⟩
  · rw [hsame]
    exact h
  · rw [hloaded]
    have hcomplete := complete_loadNeeded (addDependencies { c with references } target templates)
    exact fun path hpath => hcomplete path hpath

/-- While the localization directory stays as it is, no file is left to read. -/
theorem Steady.complete {done : List Registration} (h : Steady done c) : c.Complete := by
  induction h with
  | new => exact fun _ hpath => absurd hpath List.not_mem_nil
  | add _ r hadd ih => exact (Adds.of_ok hadd).complete
  | @failed done c c' _ r e hadd ih =>
    have hcomplete := complete_addTransforms ih r.target r.reference r.templates
    rwa [hadd] at hcomplete
  | replayed _ step ih => exact ih.mono ⟨rfl, fun _ h => h⟩ rfl
  | @read done c _ path ih =>
    obtain ⟨sources, hload⟩ := c.load_eq path
    exact ih.mono (grows_load c path) (by rw [hload])
  | @inserted done c _ path file ih => exact ih.mono (grows_insert c path file) rfl

end Context
end FluentMigration
