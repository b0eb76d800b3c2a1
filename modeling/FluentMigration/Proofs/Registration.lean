import FluentMigration.Proofs.Replay
/-!
What registering templates does to a context. A registration that succeeds adds the templates to
those of its target and notes the sources of each, and changes nothing else but what was read
(`addTransforms_ok`). So after any number of them a target has all its templates in order, while
under each key the sources are noted of the last template only (`Registered.noted`).
-/

namespace FluentMigration

open Fluent (Entry Resource)

namespace Context

variable {c c' : Context} {path key : String}

section

variable {target reference : String} {templates : List Template}

theorem addReference_ok (h : c.addReference target reference templates = .ok c') :
    ∃ references, c' = { c with references } := by
  unfold addReference at h
  split at h
  · cases h
    exact ⟨_, rfl⟩
  · split at h
    · cases h
      exact ⟨_, rfl⟩
    · split at h
      · cases h
        exact ⟨_, rfl⟩
      · cases h

theorem load_eq (c : Context) (path : String) : ∃ sources, c.load path = { c with sources } := by
  unfold load
  split
  · exact ⟨c.sources, rfl⟩
  · split
    · exact ⟨c.sources, rfl⟩
    · split
      · exact ⟨c.sources, rfl⟩
      · exact ⟨_, rfl⟩

theorem loads_eq (paths : List String) (c : Context) :
    ∃ sources, paths.foldl load c = { c with sources } := by
  induction paths generalizing c with
  | nil => exact ⟨c.sources, rfl⟩
  | cons path rest ih =>
    obtain ⟨sources, hload⟩ := c.load_eq path
    obtain ⟨later, hrest⟩ := ih (c.load path)
    rw [List.foldl_cons, hrest, hload]
    exact ⟨later, rfl⟩

theorem addTarget_ok (h : c.addTarget target = .ok c') : ∃ targets, c' = { c with targets } := by
  unfold addTarget at h
  split at h
  · cases h
    exact ⟨c.targets, rfl⟩
  · obtain ⟨current, _, h⟩ := bind_eq_ok.1 h
    cases h
    exact ⟨_, rfl⟩

/-- A registration that succeeds adds the templates and notes their sources; beyond that it only
reads references, sources and targets. -/
theorem addTransforms_ok (h : c.addTransforms target reference templates = (c', .ok ())) :
    ∃ references sources targets, c' =
      { c with
        references, sources, targets
        templates := c.templates.modify target [] (· ++ templates)
        dependencies := (c.addDependencies target templates).dependencies } := by
  unfold addTransforms at h
  split at h
  · cases h
  · next shaped hshaped =>
    obtain ⟨references, rfl⟩ := addReference_ok hshaped
    obtain ⟨sources, hloaded⟩ :=
      loads_eq (addDependencies { c with references } target templates).neededPaths
        (addDependencies { c with references } target templates)
    rw [← loadNeeded] at hloaded
    simp only [hloaded] at h
    split at h
    · cases h
    · split at h
      · cases h
      · split at h
        · cases h
        · next kept hkept =>
          obtain ⟨targets, rfl⟩ := addTarget_ok hkept
          cases h
          exact ⟨references, sources, targets, rfl⟩

end

/-- A registration succeeds that finds its reference, some source file, all its patterns and its
target. -/
theorem addTransforms_eq_ok {target reference : String} {templates : List Template}
    {shaped loaded : Context} (hshaped : c.addReference target reference templates = .ok shaped)
    (hloaded : (shaped.addDependencies target templates).loadNeeded = loaded)
    (hsources : loaded.sources.isEmpty = false)
    (hpatterns : loaded.missingPattern? templates = none)
    (htarget : (loaded.addTemplates target templates).addTarget target = .ok c') :
    c.addTransforms target reference templates = (c', .ok ()) := by
  subst hloaded
  simp only [addTransforms, hshaped, hsources, Bool.and_false, hpatterns, htarget]
  rfl

/-- The template of a key that counts for its sources. -/
def lastTemplate (templates : List Template) (key : String) : Option Template :=
  templates.reverse.find? (·.key == key)

theorem lastTemplate_append (a b : List Template) (key : String) :
    lastTemplate (a ++ b) key = (lastTemplate b key).or (lastTemplate a key) := by
  simp [lastTemplate, List.find?_append]

/-- Noting the sources of templates leaves those of the last template of each key. -/
theorem dependenciesOf_addDependencies (c : Context) (target : String) (templates : List Template)
    (path key : String) :
    (c.addDependencies target templates).dependenciesOf path key =
      if path = target then
        ((lastTemplate templates key).map fun t => SourceRef.sort t.dependencies).or
          (c.dependenciesOf path key)
      else c.dependenciesOf path key := by
  induction templates generalizing c with
  | nil => simp [addDependencies, lastTemplate]
  | cons t rest ih =>
    have hcons : c.addDependencies target (t :: rest) =
        (c.addDependencies target [t]).addDependencies target rest := rfl
    have hone : (c.addDependencies target [t]).dependenciesOf path key =
        if path = target ∧ key = t.key then some (SourceRef.sort t.dependencies)
        else c.dependenciesOf path key := by
      simp only [addDependencies, dependenciesOf, List.foldl_cons, List.foldl_nil,
        Table.get?_modify]
      by_cases hpath : path = target
      · subst hpath
        by_cases hkey : key = t.key
        · simp [hkey]
        · cases hold : c.dependencies.get? path <;>
            simp [hkey, Table.get?_insert_of_ne _ _ hkey]
      · simp [hpath]
    have hlast : lastTemplate (t :: rest) key =
        (lastTemplate rest key).or (if key = t.key then some t else none) := by
      rw [← List.singleton_append, lastTemplate_append]
      congr 1
      by_cases hkey : key = t.key
      · simp [lastTemplate, hkey]
      · simp [lastTemplate, hkey, Ne.symm hkey]
    rw [hcons, ih, hone, hlast]
    by_cases hpath : path = target
    · by_cases hkey : key = t.key
      · cases lastTemplate rest key <;> simp [hpath, hkey]
      · cases lastTemplate rest key <;> simp [hpath, hkey]
    · simp [hpath]

structure Registration where
  target : String
  reference : String
  templates : List Template

/-- A context after successful registrations. In between, changesets may have been replayed and
files may have changed. -/
inductive Registered : List Registration → Context → Prop where
  | new (locale : String) (reference : Option Directory) (localization : Directory)
      (options : Options) : Registered [] (.new locale reference localization options)
  | add {done : List Registration} {c c' : Context} (h : Registered done c) (r : Registration)
      (hadd : c.addTransforms r.target r.reference r.templates = (c', .ok ())) :
      Registered (done ++ [r]) c'
  | replayed {done : List Registration} {c : Context} (h : Registered done c) (step : Step) :
      Registered done (c.after step)
  | changed {done : List Registration} {c : Context} (h : Registered done c)
      (reference : Option Directory) (localization : Directory) :
      Registered done { c with reference, localization }

def registeredFor (done : List Registration) (path : String) : List Template :=
  (done.filter (·.target == path)).flatMap (·.templates)

theorem registeredFor_append (done : List Registration) (r : Registration) (path : String) :
    registeredFor (done ++ [r]) path =
      registeredFor done path ++ if path = r.target then r.templates else [] := by
  by_cases hpath : path = r.target
  · simp [registeredFor, hpath]
  · simp [registeredFor, hpath, Ne.symm hpath]

theorem Registered.templates {done : List Registration} (h : Registered done c) (path : String) :
    (c.templates.get? path).getD [] = registeredFor done path := by
  induction h with
  | new => rfl
  | add _ r hadd ih =>
    obtain ⟨_, _, _, rfl⟩ := addTransforms_ok hadd
    rw [registeredFor_append, ← ih, Table.get?_modify]
    by_cases hpath : path = r.target <;> simp [hpath]
  | replayed _ _ ih => exact ih
  | changed _ _ _ ih => exact ih

/-- Under each key the sources are noted of the last template registered with it. -/
theorem Registered.noted {done : List Registration} (h : Registered done c) (path key : String) :
    c.dependenciesOf path key =
      (lastTemplate (registeredFor done path) key).map fun t => SourceRef.sort t.dependencies := by
  induction h with
  | new => rfl
  | @add done c c' _ r hadd ih =>
    obtain ⟨_, _, _, rfl⟩ := addTransforms_ok hadd
    have hnoted := dependenciesOf_addDependencies c r.target r.templates path key
    rw [registeredFor_append, lastTemplate_append, Option.map_or, ← ih]
    refine Eq.trans ?_ (hnoted.trans ?_)
    · rfl
    · by_cases hpath : path = r.target <;> simp [hpath, lastTemplate]
  | replayed _ _ ih => exact ih
  | changed _ _ _ ih => exact ih

theorem inChangeset_iff {changeset known : Changes} :
    c.inChangeset path key changeset known = true ↔
      ∀ sources ∈ c.dependenciesOf path key, sources = [] ∨
        (sources ⊆ known ∧ ∃ s ∈ sources, s ∈ changeset) := by
  unfold inChangeset
  cases c.dependenciesOf path key with
  | none => simp
  | some sources => simp [List.subset_def]

end Context

/-- Whether all sources of a template are known, and a changeset has one of them if there are
any. -/
def Template.Ready (t : Template) (changeset known : Changes) : Prop :=
  t.dependencies ⊆ known ∧ (t.dependencies = [] ∨ ∃ s ∈ t.dependencies, s ∈ changeset)

theorem Template.Ready.congr {t u : Template} {changeset known : Changes}
    (h : t.Ready changeset known) (hsame : ∀ s, s ∈ t.dependencies ↔ s ∈ u.dependencies) :
    u.Ready changeset known := by
  refine ⟨fun s hs => h.1 ((hsame s).2 hs), ?_⟩
  rcases h.2 with hnil | ⟨s, hs, hmem⟩
  · refine .inl (List.eq_nil_iff_forall_not_mem.2 fun s hs => ?_)
    simpa [hnil] using (hsame s).2 hs
  · exact .inr ⟨s, (hsame s).1 hs, hmem⟩

theorem mem_sort {sources : List SourceRef} {s : SourceRef} :
    s ∈ SourceRef.sort sources ↔ s ∈ sources := by
  rw [SourceRef.sort, List.mem_mergeSort, List.mem_eraseDups]

namespace Context

/-- A key is in a changeset exactly if the last template registered with it is ready. -/
theorem Registered.inChangeset_iff_ready {c : Context} {done : List Registration}
    (h : Registered done c) {path key : String} {changeset known : Changes} :
    c.inChangeset path key changeset known = true ↔
      ∀ t ∈ lastTemplate (registeredFor done path) key, t.Ready changeset known := by
  rw [inChangeset_iff, h.noted path key]
  cases lastTemplate (registeredFor done path) key with
  | none => simp
  | some t =>
    have hempty : SourceRef.sort t.dependencies = [] ↔ t.dependencies = [] := by
      simp only [List.eq_nil_iff_forall_not_mem, mem_sort]
    simp only [Option.map_some, Option.mem_def, Option.some.injEq, forall_eq', hempty,
      List.subset_def, mem_sort, Template.Ready]
    constructor
    · rintro (hnil | ⟨hknown, hmeets⟩)
      · exact ⟨fun hs => absurd (hnil ▸ hs) List.not_mem_nil, .inl hnil⟩
      · exact ⟨hknown, .inr hmeets⟩
    · rintro ⟨hknown, hnil | hmeets⟩
      · exact .inl hnil
      · exact .inr ⟨hknown, hmeets⟩

end Context
end FluentMigration
