import FluentMigration.Proofs.Evaluation.Reached
import FluentMigration.Proofs.Registration
/-!
Reading source files on demand. A file that a registration needs is settled by it: it is read, or it
cannot be, and reading it again changes nothing as long as the directory stays the same. So what a
template yields stays the same, whatever is read after, if every file that it reaches is needed by
some registration (`evaluate_loads`). A source that only the tree for a plural form names is not
noted, and if nothing else needs its file, the file is not read (`evaluate_loads_spread`).
-/

namespace FluentMigration

open Fluent (Entry Resource)

namespace Context

variable {c c' : Context} {path : String}

/-- Reading a file changes nothing any more: it has been read, or it cannot be. -/
def Settled (c : Context) (path : String) : Prop :=
  c.sources.contains path = true ∨
    ∀ text file, c.localization.read path = .ok text → parseSource path text ≠ some file

/-- The same directory, and no fewer source files read. -/
structure Grows (c c' : Context) : Prop where
  localization : c'.localization = c.localization
  sources : ∀ path, c.sources.contains path = true → c'.sources.contains path = true

theorem Grows.refl (c : Context) : c.Grows c := ⟨rfl, fun _ h => h⟩

theorem Grows.trans {d : Context} (h : c.Grows c') (h' : c'.Grows d) : c.Grows d :=
  ⟨h'.localization.trans h.localization, fun path hpath => h'.sources path (h.sources path hpath)⟩

theorem Settled.mono (h : c.Settled path) (hgrows : c.Grows c') : c'.Settled path := by
  refine h.imp (hgrows.sources path) fun hunreadable text file hread => ?_
  rw [hgrows.localization] at hread
  exact hunreadable text file hread

theorem grows_insert (c : Context) (path : String) (file : SourceFile) :
    c.Grows { c with sources := c.sources.insert path file } where
  localization := rfl
  sources := fun other hother => by
    rw [Table.contains_insert, hother, Bool.or_true]

theorem load_of_settled (h : c.Settled path) : c.load path = c := by
  unfold load
  split
  · rfl
  · next hunread =>
    have hunreadable := h.resolve_left hunread
    split
    · rfl
    · next text hread =>
      split
      · rfl
      · next file hparse => exact absurd hparse (hunreadable text file hread)

/-- A file that has not been read yet, and can be, is read. -/
theorem load_of_read {text : String} {file : SourceFile}
    (hunread : c.sources.contains path = false) (hread : c.localization.read path = .ok text)
    (hparse : parseSource path text = some file) :
    c.load path = { c with sources := c.sources.insert path file } := by
  simp [load, hunread, hread, hparse]

theorem grows_load (c : Context) (path : String) : c.Grows (c.load path) := by
  unfold load
  split
  · exact .refl c
  · split
    · exact .refl c
    · split
      · exact .refl c
      · exact grows_insert c path _

theorem settled_load (c : Context) (path : String) : (c.load path).Settled path := by
  unfold load
  split
  · next hread => exact .inl hread
  · split
    · next hread => exact .inr fun _ _ h => by rw [hread] at h; cases h
    · next text hread =>
      split
      · next hparse =>
        refine .inr fun other file h => ?_
        rw [hread, Except.ok.injEq] at h
        rw [← h, hparse]
        exact nofun
      · exact .inl (by simp [Table.contains_insert])

theorem get?_load_of_ne (c : Context) {other : String} (h : other ≠ path) :
    (c.load path).sources.get? other = c.sources.get? other := by
  unfold load
  split
  · rfl
  · split
    · rfl
    · split
      · rfl
      · exact Table.get?_insert_of_ne _ _ h

theorem grows_loads (paths : List String) (c : Context) : c.Grows (paths.foldl load c) := by
  induction paths generalizing c with
  | nil => exact .refl c
  | cons path rest ih => exact (grows_load c path).trans (ih (c.load path))

theorem settled_loads {paths : List String} (h : path ∈ paths) (c : Context) :
    (paths.foldl load c).Settled path := by
  induction paths generalizing c with
  | nil => cases h
  | cons first rest ih =>
    rcases List.mem_cons.1 h with rfl | h
    · exact (settled_load c path).mono (grows_loads rest _)
    · exact ih h _

theorem get?_loads {paths : List String} (h : path ∈ paths → c.Settled path) :
    (paths.foldl load c).sources.get? path = c.sources.get? path := by
  induction paths generalizing c with
  | nil => rfl
  | cons first rest ih =>
    rw [List.foldl_cons]
    have hrest : path ∈ rest → (c.load first).Settled path := fun hmem =>
      (h (List.mem_cons_of_mem _ hmem)).mono (grows_load c first)
    rw [ih hrest]
    by_cases hfirst : path = first
    · rw [load_of_settled (hfirst ▸ h (hfirst ▸ List.mem_cons_self))]
    · exact get?_load_of_ne c hfirst

/-- Strings of files that are settled, or not among those that are read, stay the same. -/
theorem agreeAt_loads {paths : List String} {source : SourceRef}
    (h : source.path ∈ paths → c.Settled source.path) :
    c.lookup.AgreeAt (paths.foldl load c).lookup source := by
  obtain ⟨sources, hloads⟩ := loads_eq paths c
  have hsame := get?_loads h
  rw [hloads] at hsame ⊢
  unfold Lookup.AgreeAt
  split
  · simp only [lookup, fluentPattern, hsame]
  · simp only [lookup, legacyValue, hsame]
    rfl

theorem mem_neededPaths {target key : String} {sources : Changes} {source : SourceRef}
    (h : c.dependenciesOf target key = some sources) (hsource : source ∈ sources) :
    source.path ∈ c.neededPaths := by
  obtain ⟨keys, hkeys, hnoted⟩ := Option.bind_eq_some_iff.1 h
  have hmem : (source.path, ()) ∈ c.dependencies.entries.flatMap fun keys =>
      keys.2.entries.flatMap fun changes => changes.2.map fun source => (source.path, ()) :=
    List.mem_flatMap.2 ⟨_, Table.mem_entries_iff.2 hkeys,
      List.mem_flatMap.2 ⟨_, Table.mem_entries_iff.2 hnoted, List.mem_map.2 ⟨source, hsource, rfl⟩⟩⟩
  rw [neededPaths, Table.mem_keys_iff, Table.get?_ofList, Option.isSome_map, List.find?_isSome]
  exact ⟨_, List.mem_reverse.2 hmem, beq_self_eq_true _⟩

/-- A registration without a reference does nothing; any other reads the files that are needed, and
beyond that touches no source file. -/
theorem addTransforms_cases (c : Context) (target reference : String) (templates : List Template) :
    (∃ e, c.addTransforms target reference templates = (c, .error e)) ∨
    ∃ references targets registered, (c.addTransforms target reference templates).1 =
      { (addDependencies { c with references } target templates).loadNeeded with
        targets, templates := registered } := by
  unfold addTransforms
  split
  · exact .inl ⟨_, rfl⟩
  · next shaped hshaped =>
    obtain ⟨references, rfl⟩ := addReference_ok hshaped
    refine .inr ⟨references, ?_⟩
    simp only
    split
    · exact ⟨_, _, rfl⟩
    · split
      · exact ⟨_, _, rfl⟩
      · split
        · exact ⟨_, _, rfl⟩
        · next kept hkept =>
          obtain ⟨targets, rfl⟩ := addTarget_ok hkept
          exact ⟨targets, _, rfl⟩

theorem grows_addTransforms (c : Context) (target reference : String) (templates : List Template) :
    c.Grows (c.addTransforms target reference templates).1 := by
  rcases c.addTransforms_cases target reference templates with
    ⟨e, hsame⟩ | ⟨references, targets, registered, hloaded⟩
  · rw [hsame]
    exact .refl c
  · rw [hloaded]
    have hgrows := grows_loads (addDependencies { c with references } target templates).neededPaths
      (addDependencies { c with references } target templates)
    exact ⟨hgrows.localization, hgrows.sources⟩

/-- The files of the last template of a key are settled once it is registered. -/
theorem settled_addTransforms {target reference : String} {templates : List Template}
    (h : c.addTransforms target reference templates = (c', .ok ())) {key : String} {t : Template}
    (hlast : lastTemplate templates key = some t) {source : SourceRef}
    (hsource : source ∈ t.dependencies) : c'.Settled source.path := by
  rcases c.addTransforms_cases target reference templates with
    ⟨e, hsame⟩ | ⟨references, targets, registered, hloaded⟩
  · rw [hsame] at h
    cases h
  · have hc' : (c.addTransforms target reference templates).1 = c' := by rw [h]
    rw [hc'] at hloaded
    have hnoted : (addDependencies { c with references } target templates).dependenciesOf target
        key = some (SourceRef.sort t.dependencies) := by
      rw [dependenciesOf_addDependencies, if_pos rfl, hlast]
      rfl
    have hsettled := settled_loads (mem_neededPaths hnoted (mem_sort.2 hsource))
      (addDependencies { c with references } target templates)
    rw [hloaded]
    exact hsettled

/-- A context after successful registrations, while the localization directory stays as it is. In
between, registrations may have failed, changesets may have been replayed, and source files may have
been read or put in. -/
inductive Steady : List Registration → Context → Prop where
  | new (locale : String) (reference : Option Directory) (localization : Directory)
      (options : Options) : Steady [] (.new locale reference localization options)
  | add {done : List Registration} {c c' : Context} (h : Steady done c) (r : Registration)
      (hadd : c.addTransforms r.target r.reference r.templates = (c', .ok ())) :
      Steady (done ++ [r]) c'
  | failed {done : List Registration} {c c' : Context} (h : Steady done c) (r : Registration)
      (e : MigrationError)
      (hadd : c.addTransforms r.target r.reference r.templates = (c', .error e)) : Steady done c'
  | replayed {done : List Registration} {c : Context} (h : Steady done c) (step : Step) :
      Steady done (c.after step)
  | read {done : List Registration} {c : Context} (h : Steady done c) (path : String) :
      Steady done (c.load path)
  | inserted {done : List Registration} {c : Context} (h : Steady done c) (path : String)
      (file : SourceFile) : Steady done { c with sources := c.sources.insert path file }

/-- Some registration names a source in a file, in the template that counts for its key. -/
def Needed (done : List Registration) (path : String) : Prop :=
  ∃ r ∈ done, ∃ key, ∃ t ∈ lastTemplate r.templates key, ∃ s ∈ t.dependencies, s.path = path

theorem Steady.settled {done : List Registration} (h : Steady done c) (hneeded : Needed done path) :
    c.Settled path := by
  induction h with
  | new =>
    obtain ⟨r, hr, _⟩ := hneeded
    cases hr
  | @add done c c' _ r hadd ih =>
    obtain ⟨r', hr', key, t, hlast, s, hs, rfl⟩ := hneeded
    rcases List.mem_append.1 hr' with hr' | hr'
    · have hgrows := grows_addTransforms c r.target r.reference r.templates
      rw [hadd] at hgrows
      exact (ih ⟨r', hr', key, t, hlast, s, hs, rfl⟩).mono hgrows
    · cases List.mem_singleton.1 hr'
      exact settled_addTransforms hadd hlast hs
  | @failed done c c' _ r e hadd ih =>
    have hgrows := grows_addTransforms c r.target r.reference r.templates
    rw [hadd] at hgrows
    exact (ih hneeded).mono hgrows
  | replayed _ step ih => exact (ih hneeded).mono ⟨rfl, fun _ h => h⟩
  | @read done c _ path ih => exact (ih hneeded).mono (grows_load c path)
  | @inserted done c _ path file ih => exact (ih hneeded).mono (grows_insert c path file)

/-- Reading more files changes nothing for a template, as long as those of them that it reaches are
needed: so it is for the last template of a key in a registration if no form of a plural is
rewritten to a tree with sources of its own. -/
theorem evaluate_loads {done : List Registration} (h : Steady done c) :
    (∀ (t : Template) (paths : List String),
      (∀ s ∈ t.reached c.lookup, s.path ∈ paths → Needed done s.path) →
      t.evaluate (paths.foldl load c).lookup = t.evaluate c.lookup) ∧
    ∀ r ∈ done, ∀ t ∈ r.templates, lastTemplate r.templates t.key = some t →
      (∀ x ∈ t.transforms, x.FormsSourceFree) → ∀ paths : List String,
      t.evaluate (paths.foldl load c).lookup = t.evaluate c.lookup := by
  have hall : ∀ (t : Template) (paths : List String),
      (∀ s ∈ t.reached c.lookup, s.path ∈ paths → Needed done s.path) →
      t.evaluate (paths.foldl load c).lookup = t.evaluate c.lookup := by
    intro t paths hneeded
    have hcategories : c.lookup.categories = (paths.foldl load c).lookup.categories := by
      obtain ⟨sources, hloads⟩ := loads_eq paths c
      rw [hloads]
      rfl
    exact (Template.evaluate_of_reached hcategories fun s hs =>
      agreeAt_loads fun hpath => h.settled (hneeded s hs hpath)).symm
  refine ⟨hall, fun r hr t _ hlast hfree paths => hall t paths fun s hs _ => ?_⟩
  exact ⟨r, hr, t.key, t, hlast, s, Template.reached_subset c.lookup hfree hs, rfl⟩

def spreading : Template :=
  ⟨"m", some (.plurals ⟨"a.properties", "k", none, rfl⟩ (.variable "n")
    (some fun form =>
      .replace (.text form) [⟨"o", .copy ⟨"b.properties", "x", none, rfl⟩⟩] false)), [], none⟩

def spreadCopy : Template := ⟨"x", some (.copy ⟨"b.properties", "x", none, rfl⟩), [], none⟩

def spreadStrings : Directory :=
  ⟨⟨[(["a.properties"], .text "k = one;two\n"), (["b.properties"], .text "x = X\n")]⟩, [], ""⟩

def spreadForms : SourceFile := .legacy ⟨[⟨"k", "one;two", 1, 1, true⟩]⟩

def spreadString : SourceFile := .legacy ⟨[⟨"x", "X", 1, 1, true⟩]⟩

/-- The plural alone is registered, and its own file has been read. -/
def spread : Context where
  locale := "en"
  categories := Plural.categoriesOfLocale "en"
  enforceTranslated := false
  reference := none
  localization := spreadStrings
  sources := Table.empty.insert "a.properties" spreadForms
  references := Table.empty.insert "t.ftl" ⟨[spreading.skeleton]⟩
  targets := Table.empty.insert "t.ftl" .empty
  templates := Table.empty.insert "t.ftl" [spreading]
  dependencies := Table.empty.insert "t.ftl" (Table.empty.insert "m" [⟨"a.properties", "k"⟩])

def spreadNoted : Context :=
  { spread with sources := .empty, targets := .empty, templates := .empty }

def spreadBoth : Context :=
  { spread with
    sources := spread.sources.insert "b.properties" spreadString
    references := Table.empty.insert "t.ftl" ⟨[spreading.skeleton, spreadCopy.skeleton]⟩
    templates := Table.empty.insert "t.ftl" [spreading, spreadCopy]
    dependencies := Table.empty.insert "t.ftl"
      ((Table.empty.insert "m" [⟨"a.properties", "k"⟩]).insert "x" [⟨"b.properties", "x"⟩]) }

theorem parse_spreadForms : parseSource "a.properties" "k = one;two\n" = some spreadForms := by
  have hparse : Legacy.Resource.parse .properties "k = one;two\n" =
      ⟨[⟨"k", "one;two", 1, 1, true⟩]⟩ := by decide +kernel
  exact congrArg (some ∘ SourceFile.legacy) hparse

theorem parse_spreadString : parseSource "b.properties" "x = X\n" = some spreadString := by
  have hparse : Legacy.Resource.parse .properties "x = X\n" = ⟨[⟨"x", "X", 1, 1, true⟩]⟩ := by
    decide +kernel
  exact congrArg (some ∘ SourceFile.legacy) hparse

def spreadDone : List Registration := [⟨"t.ftl", "t.ftl", [spreading]⟩]

theorem steady_spread : Steady spreadDone spread := by
  refine .add (.new "en" none spreadStrings ⟨none, false⟩) ⟨"t.ftl", "t.ftl", [spreading]⟩ ?_
  have hshaped : (new "en" none spreadStrings ⟨none, false⟩).addReference "t.ftl" "t.ftl"
      [spreading] = .ok { spreadNoted with dependencies := .empty } := rfl
  have hnoted : { spreadNoted with dependencies := .empty }.addDependencies "t.ftl" [spreading] =
      spreadNoted := by
    have hsort : SourceRef.sort spreading.dependencies = [⟨"a.properties", "k"⟩] :=
      List.mergeSort_singleton _
    simp only [addDependencies, List.foldl_cons, List.foldl_nil, hsort]
    rfl
  have hneeded : spreadNoted.neededPaths = ["a.properties"] := rfl
  have hloaded : ({ spreadNoted with dependencies := .empty }.addDependencies "t.ftl"
      [spreading]).loadNeeded = { spreadNoted with sources := spread.sources } := by
    rw [hnoted, loadNeeded, hneeded, List.foldl_cons, List.foldl_nil,
      load_of_read rfl rfl parse_spreadForms]
    rfl
  exact addTransforms_eq_ok hshaped hloaded rfl rfl rfl

def spreadBothDone : List Registration := spreadDone ++ [⟨"t.ftl", "t.ftl", [spreadCopy]⟩]

theorem steady_spreadBoth : Steady spreadBothDone spreadBoth := by
  refine steady_spread.add ⟨"t.ftl", "t.ftl", [spreadCopy]⟩ ?_
  have hshaped : spread.addReference "t.ftl" "t.ftl" [spreadCopy] =
      .ok { spread with references := spreadBoth.references } := rfl
  have hnoted : { spread with references := spreadBoth.references }.addDependencies "t.ftl"
      [spreadCopy] = { spread with
        references := spreadBoth.references
        dependencies := spreadBoth.dependencies } := by
    have hsort : SourceRef.sort spreadCopy.dependencies = [⟨"b.properties", "x"⟩] :=
      List.mergeSort_singleton _
    simp only [addDependencies, List.foldl_cons, List.foldl_nil, hsort]
    rfl
  have hneeded : neededPaths { spread with
      references := spreadBoth.references
      dependencies := spreadBoth.dependencies } = ["a.properties", "b.properties"] := rfl
  have hread : load { spread with
      references := spreadBoth.references
      dependencies := spreadBoth.dependencies } "a.properties" = { spread with
        references := spreadBoth.references
        dependencies := spreadBoth.dependencies } := load_of_settled (.inl rfl)
  have hloaded : ({ spread with references := spreadBoth.references }.addDependencies "t.ftl"
      [spreadCopy]).loadNeeded = { spreadBoth with templates := spread.templates } := by
    rw [hnoted, loadNeeded, hneeded, List.foldl_cons, List.foldl_cons, List.foldl_nil, hread,
      load_of_read rfl rfl parse_spreadString]
    rfl
  exact addTransforms_eq_ok hshaped hloaded rfl rfl rfl

/-- The copy makes both files needed, so no file that is read later matters. -/
theorem evaluate_loads_both :
    spreading.evaluate (["b.properties", "c.properties"].foldl load spreadBoth).lookup =
        spreading.evaluate spreadBoth.lookup ∧
      spreadCopy.evaluate (["b.properties", "c.properties"].foldl load spreadBoth).lookup =
        spreadCopy.evaluate spreadBoth.lookup := by
  have hforms : Needed spreadBothDone "a.properties" :=
    ⟨_, List.mem_cons_self, "m", spreading, rfl, ⟨"a.properties", "k"⟩, by decide, rfl⟩
  have hstring : Needed spreadBothDone "b.properties" :=
    ⟨_, List.mem_cons_of_mem _ List.mem_cons_self, "x", spreadCopy, rfl, ⟨"b.properties", "x"⟩,
      by decide, rfl⟩
  have hreached : spreading.reached spreadBoth.lookup =
      [⟨"a.properties", "k"⟩, ⟨"b.properties", "x"⟩, ⟨"b.properties", "x"⟩] := by decide +kernel
  constructor
  · refine (evaluate_loads steady_spreadBoth).1 spreading _ fun s hs _ => ?_
    rw [hreached] at hs
    simp only [List.mem_cons, List.not_mem_nil, or_false, or_self] at hs
    rcases hs with rfl | rfl
    · exact hforms
    · exact hstring
  · exact (evaluate_loads steady_spreadBoth).2 _ (List.mem_cons_of_mem _ List.mem_cons_self)
      spreadCopy List.mem_cons_self rfl
      (by simp [spreadCopy, Template.transforms, Transform.FormsSourceFree]) _

/-- The pattern of the plural string, each form made a pattern by `pattern`. -/
def spreadPattern (pattern : String → Except Absent Fluent.Pattern) :
    Except Absent Fluent.Pattern := do
  let one ← pattern "one"
  let other ← pattern "two"
  .ok ⟨[.placeable (.select (.variable "n")
    [⟨.identifier "one", one, false⟩, ⟨.identifier "other", other, true⟩])]⟩

theorem pluralPattern_spread (pattern : String → Except Absent Fluent.Pattern) :
    pluralPattern spread.categories (.variable "n") pattern "one;two" = spreadPattern pattern := by
  have hforms : pluralForms spread.categories "one;two" = [(.one, "one"), (.other, "two")] := by
    decide +kernel
  have hlast : Plural.Category.last spread.categories = .other := rfl
  have hcomplete : completeForms .other [(.one, "one"), (.other, "two")] =
      [(.one, "one"), (.other, "two")] := by
    have hle : Plural.Category.one ≤ .other := by decide
    simp [completeForms, List.mergeSort, hle]
  rw [pluralPattern, hforms]
  simp only [hlast, hcomplete, pluralVariants, spreadPattern]
  cases pattern "one" <;> cases pattern "two" <;> rfl

def spreadForm (lookup : Lookup) (form : String) : Except Absent Fluent.Pattern :=
  (Transform.replace (.text form) [⟨"o", .copy ⟨"b.properties", "x", none, rfl⟩⟩] false).evaluate
    lookup

/-- The string for the forms is reported as absent, until its file is read for another reason. -/
theorem evaluate_loads_spread :
    ¬ ∀ (done : List Registration) (c : Context), Steady done c → ∀ r ∈ done, ∀ t ∈ r.templates,
      ∀ paths : List String,
        t.evaluate (paths.foldl load c).lookup = t.evaluate c.lookup := by
  intro hall
  have hsame := hall spreadDone spread steady_spread _ List.mem_cons_self spreading
    List.mem_cons_self ["b.properties"]
  have hloaded : ["b.properties"].foldl load spread =
      { spread with sources := spreadBoth.sources } := by
    rw [List.foldl_cons, List.foldl_nil, load_of_read rfl rfl parse_spreadString]
    rfl
  have hbefore : spreading.evaluate spread.lookup =
      ((pluralPattern spread.categories (.variable "n") (spreadForm spread.lookup)
        "one;two").map some >>= fun value => .ok (spreading.entry value [])) := rfl
  have hafter : spreading.evaluate (lookup { spread with sources := spreadBoth.sources }) =
      ((pluralPattern spread.categories (.variable "n")
        (spreadForm (lookup { spread with sources := spreadBoth.sources }))
        "one;two").map some >>= fun value => .ok (spreading.entry value [])) := rfl
  rw [hloaded, hbefore, hafter, pluralPattern_spread, pluralPattern_spread] at hsame
  cases hsame

end Context
end FluentMigration
