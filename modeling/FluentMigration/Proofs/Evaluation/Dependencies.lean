import FluentMigration.Evaluation
import FluentMigration.Proofs.Fluent.Words
/-!
What evaluation depends on. The sources that a transform or a template names decide its result: two
lookups that agree on them cannot be told apart, a result is certain once all of them resolve, and
what is reported as absent is one of them (`evaluate_decidedBy_dependencies`). The forms of a plural
string are rewritten by any function, so the trees it builds must not name sources of their own.
-/

namespace FluentMigration

open Fluent (Pattern Element Variant)

namespace Lookup

/-- Whether there is a string for a source: a pattern in a Fluent file, a value in any other. -/
def Resolves (lookup : Lookup) (source : SourceRef) : Prop :=
  if isFluentPath source.path then (lookup.fluent source).isSome else (lookup.legacy source).isSome

/-- Whether two lookups have the same string for a source, or both have none. -/
def AgreeAt (a b : Lookup) (source : SourceRef) : Prop :=
  if isFluentPath source.path then a.fluent source = b.fluent source
  else a.legacy source = b.legacy source

theorem agreeAt_legacy {a b : Lookup} {source : LegacySource} :
    a.AgreeAt b source.ref ↔ a.legacy source.ref = b.legacy source.ref := by
  simp [AgreeAt, LegacySource.ref, source.legacy]

theorem agreeAt_fluent {a b : Lookup} {source : FluentSource} :
    a.AgreeAt b source.ref ↔ a.fluent source.ref = b.fluent source.ref := by
  simp [AgreeAt, FluentSource.ref, source.fluent]

theorem resolves_legacy {lookup : Lookup} {source : LegacySource} :
    lookup.Resolves source.ref ↔ (lookup.legacy source.ref).isSome := by
  simp [Resolves, LegacySource.ref, source.legacy]

theorem resolves_fluent {lookup : Lookup} {source : FluentSource} :
    lookup.Resolves source.ref ↔ (lookup.fluent source.ref).isSome := by
  simp [Resolves, FluentSource.ref, source.fluent]

end Lookup

/-- What a computation yields depends on the plural categories and on some sources alone. -/
structure DecidedBy {α : Type} (sources : List SourceRef) (run : Lookup → Except Absent α) :
    Prop where
  same : ∀ a b : Lookup, a.categories = b.categories → (∀ s ∈ sources, a.AgreeAt b s) →
    run a = run b
  present : ∀ lookup : Lookup, (∀ s ∈ sources, lookup.Resolves s) → ∃ x, run lookup = .ok x
  absent : ∀ (lookup : Lookup) (missing : Absent), run lookup = .error missing →
    missing.source ∈ sources ∧ ¬ lookup.Resolves missing.source

namespace DecidedBy

variable {α β : Type} {sources others : List SourceRef}

/-- Where only an unresolved source is reported, nothing is once all of them resolve. -/
theorem of_absent {run : Lookup → Except Absent α}
    (hsame : ∀ a b : Lookup, a.categories = b.categories → (∀ s ∈ sources, a.AgreeAt b s) →
      run a = run b)
    (habsent : ∀ (lookup : Lookup) (missing : Absent), run lookup = .error missing →
      missing.source ∈ sources ∧ ¬ lookup.Resolves missing.source) :
    DecidedBy sources run where
  same := hsame
  present := by
    intro lookup hall
    cases hrun : run lookup with
    | ok x => exact ⟨x, rfl⟩
    | error missing =>
      obtain ⟨hmem, hunresolved⟩ := habsent lookup missing hrun
      exact absurd (hall _ hmem) hunresolved
  absent := habsent

theorem ok (x : α) : DecidedBy [] fun _ => (.ok x : Except Absent α) :=
  .of_absent (fun _ _ _ _ => rfl) nofun

theorem mono {run : Lookup → Except Absent α} (h : DecidedBy sources run)
    (hsubset : sources ⊆ others) : DecidedBy others run :=
  .of_absent (fun a b hcategories hagree =>
      h.same a b hcategories fun s hs => hagree s (hsubset hs))
    fun lookup missing hrun => (h.absent lookup missing hrun).imp_left (@hsubset _)

theorem bind {run : Lookup → Except Absent α} {next : α → Lookup → Except Absent β}
    (h : DecidedBy sources run) (hnext : ∀ x, DecidedBy others (next x)) :
    DecidedBy (sources ++ others) fun lookup => run lookup >>= fun x => next x lookup := by
  refine .of_absent (fun a b hcategories hagree => ?_) fun lookup missing hrun => ?_
  · rw [List.forall_mem_append] at hagree
    rw [h.same a b hcategories hagree.1]
    cases run b with
    | error missing => rfl
    | ok x => exact (hnext x).same a b hcategories hagree.2
  · rw [List.mem_append]
    cases hfirst : run lookup with
    | error reason =>
      rw [hfirst] at hrun
      cases hrun
      exact (h.absent lookup missing hfirst).imp_left .inl
    | ok x =>
      rw [hfirst, ok_bind] at hrun
      exact ((hnext x).absent lookup missing hrun).imp_left .inr

theorem map {run : Lookup → Except Absent α} (h : DecidedBy sources run) (f : α → β) :
    DecidedBy sources fun lookup => run lookup >>= fun x => .ok (f x) :=
  (h.bind fun x => ok (f x)).mono (by simp)

theorem categories {run : List Plural.Category → Lookup → Except Absent α}
    (h : ∀ categories, DecidedBy sources (run categories)) :
    DecidedBy sources fun lookup => run lookup.categories lookup := by
  refine .of_absent (fun a b hcategories hagree => ?_) fun lookup => (h _).absent lookup
  rw [hcategories]
  exact (h _).same a b hcategories hagree

theorem legacyValue (source : LegacySource) :
    DecidedBy [source.ref] fun lookup => lookup.legacyValue source := by
  refine .of_absent (fun a b _ hagree => ?_) fun lookup missing hrun => ?_
  · have hsame := Lookup.agreeAt_legacy.1 (hagree _ List.mem_cons_self)
    simp only [Lookup.legacyValue, hsame]
  · unfold Lookup.legacyValue at hrun
    split at hrun
    · cases hrun
    · next hnone =>
      cases hrun
      exact ⟨List.mem_cons_self, by simp [Lookup.resolves_legacy, hnone]⟩

theorem fluentPattern (source : FluentSource) :
    DecidedBy [source.ref] fun lookup => lookup.fluentPattern source := by
  refine .of_absent (fun a b _ hagree => ?_) fun lookup missing hrun => ?_
  · have hsame := Lookup.agreeAt_fluent.1 (hagree _ List.mem_cons_self)
    simp only [Lookup.fluentPattern, hsame]
  · unfold Lookup.fluentPattern at hrun
    split at hrun
    · cases hrun
    · next hnone =>
      cases hrun
      exact ⟨List.mem_cons_self, by simp [Lookup.resolves_fluent, hnone]⟩

theorem baseText (base : ReplaceBase) :
    DecidedBy (Transform.ReplaceBase.sources base) fun lookup => lookup.baseText base := by
  cases base with
  | source source => exact legacyValue source
  | text value => exact ok value

end DecidedBy

/-- The elements of pieces, when the value of every placeholder is decided by some sources. -/
theorem elementsOfPieces_decidedBy {sources : List SourceRef}
    {values : Lookup → List (Except Absent Pattern)}
    (h : ∀ index : Nat, DecidedBy sources fun lookup =>
      ((values lookup)[index]?.getD (.ok ⟨[]⟩) : Except Absent Pattern))
    (pieces : List Placeholder.Piece) :
    DecidedBy sources fun lookup => elementsOfPieces (values lookup) pieces := by
  induction pieces with
  | nil => exact (DecidedBy.ok []).mono (List.nil_subset _)
  | cons piece rest ih =>
    cases piece with
    | text value => exact ih.map fun others => .text (String.ofList value) :: others
    | placeholder index =>
      have hboth := (h index).bind fun pattern => ih.map fun others => pattern.elements ++ others
      exact hboth.mono (by simp)

theorem pluralVariants_decidedBy {pattern : String → Lookup → Except Absent Pattern}
    (h : ∀ form, DecidedBy [] (pattern form)) (default : Plural.Category)
    (forms : List (Plural.Category × String)) :
    DecidedBy [] fun lookup => pluralVariants (pattern · lookup) default forms := by
  induction forms with
  | nil => exact .ok []
  | cons head rest ih =>
    obtain ⟨category, form⟩ := head
    exact (h form).bind fun value => ih.map fun others =>
      ⟨.identifier category.name, value, category = default⟩ :: others

/-- A plural string needs no source but its own if its forms need none. -/
theorem pluralPattern_decidedBy {pattern : String → Lookup → Except Absent Pattern}
    (h : ∀ form, DecidedBy [] (pattern form)) (categories : List Plural.Category)
    (selector : Fluent.Inline) (value : String) :
    DecidedBy [] fun lookup => pluralPattern categories selector (pattern · lookup) value := by
  unfold pluralPattern
  split
  · exact .ok _
  · exact h _
  · have hvariants := pluralVariants_decidedBy h (Plural.Category.last categories)
      (completeForms (Plural.Category.last categories) (pluralForms categories value))
    exact hvariants.map fun variants => (⟨[.placeable (.select selector variants)]⟩ : Pattern)

mutual

/-- The trees that plural forms are rewritten to name no sources. -/
def Transform.FormsSourceFree : Transform → Prop
  | .text _ => True
  | .expression _ => True
  | .pattern _ => True
  | .select _ variants => VariantsFormsSourceFree variants
  | .copy _ => True
  | .copyPattern _ => True
  | .concat parts => PartsFormsSourceFree parts
  | .replace _ replacements _ => ReplacementsFormsSourceFree replacements
  | .plurals _ _ ofForm => ∀ f ∈ ofForm, ∀ form, (f form).sources = []
  | .transformPattern _ _ => True
termination_by structural x => x

def VariantsFormsSourceFree : List TransformVariant → Prop
  | [] => True
  | ⟨_, value, _⟩ :: rest => value.FormsSourceFree ∧ VariantsFormsSourceFree rest
termination_by structural x => x

def PartsFormsSourceFree : List Transform → Prop
  | [] => True
  | part :: rest => part.FormsSourceFree ∧ PartsFormsSourceFree rest
termination_by structural x => x

def ReplacementsFormsSourceFree : List Replacement → Prop
  | [] => True
  | ⟨_, value⟩ :: rest => value.FormsSourceFree ∧ ReplacementsFormsSourceFree rest
termination_by structural x => x

end

mutual

theorem formsSourceFree_of_sources (t : Transform) (h : t.sources = []) : t.FormsSourceFree := by
  cases t with
  | select selector variants => exact variantsFormsSourceFree_of_sources variants h
  | concat parts => exact partsFormsSourceFree_of_sources parts h
  | replace base replacements printf =>
    exact replacementsFormsSourceFree_of_sources replacements (List.append_eq_nil_iff.1 h).1
  | plurals source selector ofForm => cases h
  | _ => trivial
termination_by structural t

theorem variantsFormsSourceFree_of_sources (vs : List TransformVariant)
    (h : Transform.sourcesOfVariants vs = []) : VariantsFormsSourceFree vs := by
  cases vs with
  | nil => trivial
  | cons v rest =>
    obtain ⟨key, value, isDefault⟩ := v
    obtain ⟨hvalue, hrest⟩ := List.append_eq_nil_iff.1 h
    exact ⟨formsSourceFree_of_sources value hvalue, variantsFormsSourceFree_of_sources rest hrest⟩
termination_by structural vs

theorem partsFormsSourceFree_of_sources (parts : List Transform)
    (h : Transform.sourcesOfParts parts = []) : PartsFormsSourceFree parts := by
  cases parts with
  | nil => trivial
  | cons part rest =>
    obtain ⟨hpart, hrest⟩ := List.append_eq_nil_iff.1 h
    exact ⟨formsSourceFree_of_sources part hpart, partsFormsSourceFree_of_sources rest hrest⟩
termination_by structural parts

theorem replacementsFormsSourceFree_of_sources (rs : List Replacement)
    (h : Transform.sourcesOfReplacements rs = []) : ReplacementsFormsSourceFree rs := by
  cases rs with
  | nil => trivial
  | cons r rest =>
    obtain ⟨placeholder, value⟩ := r
    obtain ⟨hvalue, hrest⟩ := List.append_eq_nil_iff.1 h
    exact ⟨formsSourceFree_of_sources value hvalue,
      replacementsFormsSourceFree_of_sources rest hrest⟩
termination_by structural rs

end

mutual

theorem transform_decidedBy (t : Transform) (ht : t.FormsSourceFree) :
    DecidedBy t.sources fun lookup => t.evaluate lookup := by
  cases t with
  | text value => exact .ok _
  | expression content => exact .ok _
  | pattern value => exact .ok value
  | select selector variants =>
    exact (variants_decidedBy variants ht).map fun vs =>
      (⟨[.placeable (.select selector vs)]⟩ : Pattern)
  | copy source => exact (DecidedBy.legacyValue source).map textPattern
  | copyPattern source => exact .fluentPattern source
  | concat parts => exact (parts_decidedBy parts ht).map Pattern.ofElements
  | replace base replacements printf =>
    have hvalues := replacements_decidedBy replacements ht
    have hbase := (DecidedBy.baseText base).bind fun value =>
      (elementsOfPieces_decidedBy hvalues (splitText printf replacements value)).map
        Pattern.ofElements
    exact hbase.mono List.perm_append_comm.subset
  | plurals source selector ofForm =>
    exact (DecidedBy.legacyValue source).bind fun value => .categories fun categories =>
      pluralPattern_decidedBy (fun form => form_decidedBy ofForm ht form) categories selector value
  | transformPattern source visitor =>
    exact (DecidedBy.fluentPattern source).map fun pattern => pattern.walk visitor
termination_by structural t

/-- A variant that is left out needs its sources as much as one that is kept. -/
theorem variants_decidedBy (vs : List TransformVariant) (hvs : VariantsFormsSourceFree vs) :
    DecidedBy (Transform.sourcesOfVariants vs) fun lookup => evaluateVariants lookup vs := by
  cases vs with
  | nil => exact .ok []
  | cons v rest =>
    obtain ⟨key, value, isDefault⟩ := v
    have hvalue := transform_decidedBy value hvs.1
    have hrest := variants_decidedBy rest hvs.2
    refine .of_absent (fun a b hcategories hagree => ?_) fun lookup missing hrun => ?_
    · obtain ⟨hagreeValue, hagreeRest⟩ := List.forall_mem_append.1 hagree
      simp only [evaluateVariants, hvalue.same a b hcategories hagreeValue,
        hrest.same a b hcategories hagreeRest]
    · rw [Transform.sourcesOfVariants, List.mem_append]
      have hlater : evaluateVariants lookup rest = .error missing →
          (missing.source ∈ value.sources ∨ missing.source ∈ Transform.sourcesOfVariants rest) ∧
            ¬ lookup.Resolves missing.source :=
        fun hmissing => (hrest.absent lookup missing hmissing).imp_left .inr
      rw [evaluateVariants] at hrun
      cases heval : value.evaluate lookup with
      | ok pattern =>
        cases hothers : evaluateVariants lookup rest with
        | ok others => simp [heval, hothers] at hrun
        | error reason =>
          simp only [heval, hothers] at hrun
          cases hrun
          exact hlater hothers
      | error reason =>
        simp only [heval] at hrun
        cases isDefault with
        | true =>
          cases hrun
          exact (hvalue.absent lookup missing heval).imp_left .inl
        | false => exact hlater hrun
termination_by structural vs

theorem parts_decidedBy (parts : List Transform) (hparts : PartsFormsSourceFree parts) :
    DecidedBy (Transform.sourcesOfParts parts) fun lookup => evaluateParts lookup parts := by
  cases parts with
  | nil => exact .ok []
  | cons part rest =>
    exact (transform_decidedBy part hparts.1).bind fun pattern =>
      (parts_decidedBy rest hparts.2).map fun others => pattern.elements ++ others
termination_by structural parts

theorem replacements_decidedBy (rs : List Replacement) (hrs : ReplacementsFormsSourceFree rs)
    (index : Nat) : DecidedBy (Transform.sourcesOfReplacements rs)
      fun lookup => (evaluateReplacements lookup rs)[index]?.getD (.ok ⟨[]⟩) := by
  cases rs with
  | nil => exact .ok _
  | cons r rest =>
    obtain ⟨placeholder, value⟩ := r
    cases index with
    | zero =>
      exact (transform_decidedBy value hrs.1).mono (List.subset_append_left _ _)
    | succ index =>
      exact (replacements_decidedBy rest hrs.2 index).mono (List.subset_append_right _ _)
termination_by structural rs

theorem form_decidedBy (ofForm : Option (String → Transform))
    (h : ∀ f ∈ ofForm, ∀ form, (f form).sources = []) (form : String) :
    DecidedBy [] fun lookup => evaluateForm lookup form ofForm := by
  cases ofForm with
  | none => exact .ok _
  | some f =>
    have hnone := h f rfl form
    have htree := transform_decidedBy (f form) (formsSourceFree_of_sources _ hnone)
    rwa [hnone] at htree
termination_by structural ofForm

end

def attributeSources (templates : List AttributeTemplate) : List SourceRef :=
  templates.flatMap (·.value.sources)

theorem evaluateAttributes_same {a b : Lookup} (hcategories : a.categories = b.categories)
    {templates : List AttributeTemplate} (h : ∀ x ∈ templates, x.value.FormsSourceFree)
    (hagree : ∀ s ∈ attributeSources templates, a.AgreeAt b s) :
    evaluateAttributes a templates = evaluateAttributes b templates := by
  induction templates with
  | nil => rfl
  | cons x rest ih =>
    rw [List.forall_mem_cons] at h
    rw [attributeSources, List.flatMap_cons, List.forall_mem_append] at hagree
    have hvalue := (transform_decidedBy x.value h.1).same a b hcategories hagree.1
    simp only [evaluateAttributes, ih h.2 hagree.2, hvalue]

theorem evaluateAttributes_missing {lookup : Lookup} {templates : List AttributeTemplate}
    (h : ∀ x ∈ templates, x.value.FormsSourceFree) {missing : Absent}
    (hmissing : (evaluateAttributes lookup templates).2 = some missing) :
    missing.source ∈ attributeSources templates ∧ ¬ lookup.Resolves missing.source := by
  induction templates with
  | nil => cases hmissing
  | cons x rest ih =>
    rw [List.forall_mem_cons] at h
    rw [attributeSources, List.flatMap_cons, List.mem_append]
    rw [evaluateAttributes] at hmissing
    cases heval : x.value.evaluate lookup with
    | ok pattern =>
      simp only [heval] at hmissing
      exact (ih h.2 hmissing).imp_left .inr
    | error reason =>
      simp only [heval] at hmissing
      cases hrest : (evaluateAttributes lookup rest).2 with
      | some earlier =>
        rw [hrest] at hmissing
        cases hmissing
        exact (ih h.2 hrest).imp_left .inr
      | none =>
        rw [hrest] at hmissing
        cases hmissing
        exact ((transform_decidedBy x.value h.1).absent lookup reason heval).imp_left .inl

/-- The entry that a value and the attributes make, or the reason why there is none. -/
def entryOf (m : Template) (value : Option Pattern) (lookup : Lookup) :
    Except Absent Fluent.Entry :=
  match (evaluateAttributes lookup m.attributes).2 with
  | some absent =>
    if value.isNone && (evaluateAttributes lookup m.attributes).1.isEmpty then .error absent
    else .ok (m.entry value (evaluateAttributes lookup m.attributes).1)
  | none => .ok (m.entry value (evaluateAttributes lookup m.attributes).1)

theorem entryOf_decidedBy {m : Template} (h : ∀ x ∈ m.attributes, x.value.FormsSourceFree)
    (value : Option Pattern) : DecidedBy (attributeSources m.attributes) (entryOf m value) := by
  refine .of_absent (fun a b hcategories hagree => ?_) fun lookup missing hrun => ?_
  · simp only [entryOf, evaluateAttributes_same hcategories h hagree]
  · unfold entryOf at hrun
    split at hrun
    · next absent hmissing =>
      split at hrun
      · cases hrun
        exact evaluateAttributes_missing h hmissing
      · cases hrun
    · cases hrun

theorem template_decidedBy (m : Template) (h : ∀ t ∈ m.transforms, t.FormsSourceFree) :
    DecidedBy (m.transforms.flatMap Transform.sources) fun lookup => m.evaluate lookup := by
  rw [Template.transforms, List.forall_mem_append, List.forall_mem_map] at h
  have hsources : m.transforms.flatMap Transform.sources =
      m.value.toList.flatMap Transform.sources ++ attributeSources m.attributes := by
    rw [Template.transforms, List.flatMap_append, List.flatMap_map, attributeSources]
  rw [hsources]
  cases hv : m.value with
  | none =>
    have heval : (fun lookup => m.evaluate lookup) = entryOf m none := by
      funext lookup
      simp only [Template.evaluate, hv]
      rfl
    rw [heval]
    exact (entryOf_decidedBy h.2 none).mono (List.subset_append_right _ _)
  | some t =>
    have heval : (fun lookup => m.evaluate lookup) =
        fun lookup => t.evaluate lookup >>= fun p => entryOf m (some p) lookup := by
      funext lookup
      simp only [Template.evaluate, hv]
      cases t.evaluate lookup <;> rfl
    have ht : t.FormsSourceFree := h.1 t (by simp [hv])
    rw [heval]
    simpa using (transform_decidedBy t ht).bind fun p => entryOf_decidedBy h.2 (some p)

/-- The dependencies of a transform, and those of a template, decide what it yields: it is the same
for lookups that agree on them, it is there if they all resolve, and what it lacks is one of
them. -/
theorem evaluate_decidedBy_dependencies :
    (∀ t : Transform, t.FormsSourceFree →
      DecidedBy t.dependencies fun lookup => t.evaluate lookup) ∧
    ∀ m : Template, (∀ t ∈ m.transforms, t.FormsSourceFree) →
      DecidedBy m.dependencies fun lookup => m.evaluate lookup := by
  have hdups : ∀ sources : List SourceRef, sources ⊆ sources.eraseDups :=
    fun sources s hs => List.mem_eraseDups.2 hs
  constructor
  · intro t ht
    exact (transform_decidedBy t ht).mono (hdups _)
  · intro m hm
    exact (template_decidedBy m hm).mono (hdups _)

/-- A plural string whose forms have a placeholder replaced, and an attribute from a Fluent file. -/
def tabsTemplate : Template :=
  ⟨"tabs", some (.plurals ⟨"tabs.properties", "count", none, rfl⟩ (.variable "n")
      (some fun form => .replace (.text form) [⟨"#1", .variableRef "n"⟩] false)),
    [⟨"title", .copyPattern ⟨"old.ftl", "tabs", rfl, rfl⟩⟩], none⟩

theorem evaluate_decidedBy_dependencies_tabs :
    (∀ t ∈ tabsTemplate.transforms, t.FormsSourceFree ∧
      DecidedBy t.dependencies fun lookup => t.evaluate lookup) ∧
    DecidedBy [⟨"tabs.properties", "count"⟩, ⟨"old.ftl", "tabs"⟩]
      fun lookup => tabsTemplate.evaluate lookup := by
  have hfree : ∀ t ∈ tabsTemplate.transforms, t.FormsSourceFree := by
    simp [tabsTemplate, Template.transforms, Transform.FormsSourceFree, Transform.sources,
      Transform.sourcesOfReplacements, Transform.ReplaceBase.sources, Transform.variableRef]
  have hdependencies : tabsTemplate.dependencies =
      [⟨"tabs.properties", "count"⟩, ⟨"old.ftl", "tabs"⟩] := by decide
  refine ⟨fun t ht => ⟨hfree t ht, evaluate_decidedBy_dependencies.1 t (hfree t ht)⟩, ?_⟩
  rw [← hdependencies]
  exact evaluate_decidedBy_dependencies.2 tabsTemplate hfree

end FluentMigration
