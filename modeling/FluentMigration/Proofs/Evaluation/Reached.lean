import FluentMigration.Proofs.Evaluation.Dependencies
/-!
The sources that evaluation reaches. The forms of a plural string are rewritten by any function, so
which sources the trees name that it builds is known only once the string is
(`Transform.reached`). Lookups that agree on what is reached cannot be told apart
(`Template.evaluate_of_reached`), and if no form names a source, nothing is reached but what the
transform names (`Template.reached_subset`).
-/

namespace FluentMigration

open Fluent (Pattern Variant)

def formsIn (lookup : Lookup) (value : String) : List String :=
  (pluralForms lookup.categories value).map (·.2)

theorem mem_completeForms {default : Plural.Category} {forms : List (Plural.Category × String)}
    {category : Plural.Category} {form : String}
    (h : (category, form) ∈ completeForms default forms) : form ∈ forms.map (·.2) := by
  have hsorted : ∀ {c : Plural.Category}, (c, form) ∈ forms.mergeSort (fun a b => a.1 ≤ b.1) →
      form ∈ forms.map (·.2) :=
    fun hm => List.mem_map.2 ⟨_, List.mem_mergeSort.1 hm, rfl⟩
  simp only [completeForms] at h
  split at h
  · next last stands hlast =>
    split at h
    · exact hsorted h
    · rcases List.mem_append.1 h with h | h
      · exact hsorted h
      · cases List.mem_singleton.1 h
        exact hsorted (List.mem_of_getLast? hlast)
  · exact hsorted h

theorem pluralVariants_congr {f g : String → Except Absent Pattern} {default : Plural.Category}
    {forms : List (Plural.Category × String)} (h : ∀ x ∈ forms, f x.2 = g x.2) :
    pluralVariants f default forms = pluralVariants g default forms := by
  induction forms with
  | nil => rfl
  | cons x rest ih =>
    rw [List.forall_mem_cons] at h
    simp only [pluralVariants, h.1, ih h.2]

theorem pluralPattern_congr {f g : String → Except Absent Pattern}
    {categories : List Plural.Category} {selector : Fluent.Inline} {value : String}
    (h : ∀ form ∈ (pluralForms categories value).map (·.2), f form = g form) :
    pluralPattern categories selector f value = pluralPattern categories selector g value := by
  unfold pluralPattern
  split
  · rfl
  · next category form hforms => exact h form (by simp [hforms])
  · have hvariants := fun default => @pluralVariants_congr f g default
      (completeForms default (pluralForms categories value))
      fun x hx => h x.2 (mem_completeForms hx)
    simp only [hvariants]

mutual

/-- The sources named in a transform and in the trees that its plural forms are rewritten to, as far
as the lookup has their strings. -/
def Transform.reached (lookup : Lookup) : Transform → List SourceRef
  | .text _ => []
  | .expression _ => []
  | .pattern _ => []
  | .select _ variants => reachedByVariants lookup variants
  | .copy source => [source.ref]
  | .copyPattern source => [source.ref]
  | .concat parts => reachedByParts lookup parts
  | .replace base replacements _ =>
    reachedByReplacements lookup replacements ++ Transform.ReplaceBase.sources base
  | .plurals source _ ofForm =>
    source.ref :: ((lookup.legacy source.ref).toList.flatMap fun value =>
      (formsIn lookup (source.process value)).flatMap fun form => reachedByForm lookup form ofForm)
  | .transformPattern source _ => [source.ref]
termination_by structural x => x

def reachedByVariants (lookup : Lookup) : List TransformVariant → List SourceRef
  | [] => []
  | ⟨_, value, _⟩ :: rest => value.reached lookup ++ reachedByVariants lookup rest
termination_by structural x => x

def reachedByParts (lookup : Lookup) : List Transform → List SourceRef
  | [] => []
  | part :: rest => part.reached lookup ++ reachedByParts lookup rest
termination_by structural x => x

def reachedByReplacements (lookup : Lookup) : List Replacement → List SourceRef
  | [] => []
  | ⟨_, value⟩ :: rest => value.reached lookup ++ reachedByReplacements lookup rest
termination_by structural x => x

def reachedByForm (lookup : Lookup) (form : String) : Option (String → Transform) → List SourceRef
  | none => []
  | some ofForm => (ofForm form).reached lookup
termination_by structural x => x

end

section

-- The hypothesis is used through the recursion only by some of the theorems below.
set_option linter.unusedSectionVars false

variable {a b : Lookup} (hcategories : a.categories = b.categories)

include hcategories

mutual

theorem evaluate_of_reached (t : Transform) (h : ∀ s ∈ t.reached a, a.AgreeAt b s) :
    t.evaluate a = t.evaluate b := by
  cases t with
  | text value => rfl
  | expression content => rfl
  | pattern value => rfl
  | select selector variants =>
    simp only [Transform.evaluate, evaluateVariants_of_reached variants h]
  | copy source =>
    have hsame := (DecidedBy.legacyValue source).same a b hcategories h
    simp only [Transform.evaluate, hsame]
  | copyPattern source => exact (DecidedBy.fluentPattern source).same a b hcategories h
  | concat parts => simp only [Transform.evaluate, evaluateParts_of_reached parts h]
  | replace base replacements printf =>
    obtain ⟨hreplacements, hbase⟩ := List.forall_mem_append.1 h
    have hsame := (DecidedBy.baseText base).same a b hcategories hbase
    simp only [Transform.evaluate, hsame,
      evaluateReplacements_of_reached replacements hreplacements]
  | plurals source selector ofForm =>
    rw [Transform.reached, List.forall_mem_cons] at h
    have hsame := Lookup.agreeAt_legacy.1 h.1
    simp only [Transform.evaluate, Lookup.legacyValue, ← hsame]
    cases hvalue : a.legacy source.ref with
    | none => rfl
    | some value =>
      rw [hvalue] at h
      have hforms : ∀ form ∈ formsIn a (source.process value),
          evaluateForm a form ofForm = evaluateForm b form ofForm := fun form hform =>
        evaluateForm_of_reached ofForm form fun s hs =>
          h.2 s (List.mem_flatMap.2 ⟨value, List.mem_singleton_self _,
            List.mem_flatMap.2 ⟨form, hform, hs⟩⟩)
      simp only [ok_bind, ← hcategories]
      exact pluralPattern_congr hforms
  | transformPattern source visitor =>
    have hsame := (DecidedBy.fluentPattern source).same a b hcategories h
    simp only [Transform.evaluate, hsame]
termination_by structural t

theorem evaluateVariants_of_reached (vs : List TransformVariant)
    (h : ∀ s ∈ reachedByVariants a vs, a.AgreeAt b s) :
    evaluateVariants a vs = evaluateVariants b vs := by
  cases vs with
  | nil => rfl
  | cons v rest =>
    obtain ⟨key, value, isDefault⟩ := v
    obtain ⟨hvalue, hrest⟩ := List.forall_mem_append.1 h
    simp only [evaluateVariants, evaluate_of_reached value hvalue,
      evaluateVariants_of_reached rest hrest]
termination_by structural vs

theorem evaluateParts_of_reached (parts : List Transform)
    (h : ∀ s ∈ reachedByParts a parts, a.AgreeAt b s) :
    evaluateParts a parts = evaluateParts b parts := by
  cases parts with
  | nil => rfl
  | cons part rest =>
    obtain ⟨hpart, hrest⟩ := List.forall_mem_append.1 h
    simp only [evaluateParts, evaluate_of_reached part hpart, evaluateParts_of_reached rest hrest]
termination_by structural parts

theorem evaluateReplacements_of_reached (rs : List Replacement)
    (h : ∀ s ∈ reachedByReplacements a rs, a.AgreeAt b s) :
    evaluateReplacements a rs = evaluateReplacements b rs := by
  cases rs with
  | nil => rfl
  | cons r rest =>
    obtain ⟨placeholder, value⟩ := r
    obtain ⟨hvalue, hrest⟩ := List.forall_mem_append.1 h
    simp only [evaluateReplacements, evaluate_of_reached value hvalue,
      evaluateReplacements_of_reached rest hrest]
termination_by structural rs

theorem evaluateForm_of_reached (ofForm : Option (String → Transform)) (form : String)
    (h : ∀ s ∈ reachedByForm a form ofForm, a.AgreeAt b s) :
    evaluateForm a form ofForm = evaluateForm b form ofForm := by
  cases ofForm with
  | none => rfl
  | some f => exact evaluate_of_reached (f form) h
termination_by structural ofForm

end

end

mutual

theorem reached_subset (lookup : Lookup) (t : Transform) (h : t.FormsSourceFree) :
    t.reached lookup ⊆ t.sources := by
  cases t with
  | text value => exact List.Subset.refl _
  | expression content => exact List.Subset.refl _
  | pattern value => exact List.Subset.refl _
  | select selector variants => exact reachedByVariants_subset lookup variants h
  | copy source => exact List.Subset.refl _
  | copyPattern source => exact List.Subset.refl _
  | concat parts => exact reachedByParts_subset lookup parts h
  | replace base replacements printf =>
    exact List.append_subset.2
      ⟨List.subset_append_of_subset_left _ (reachedByReplacements_subset lookup replacements h),
        List.subset_append_of_subset_right _ (List.Subset.refl _)⟩
  | plurals source selector ofForm =>
    refine List.cons_subset_cons _ fun s hs => ?_
    obtain ⟨value, _, hs⟩ := List.mem_flatMap.1 hs
    obtain ⟨form, _, hs⟩ := List.mem_flatMap.1 hs
    exact reachedByForm_subset lookup ofForm h form hs
  | transformPattern source visitor => exact List.Subset.refl _
termination_by structural t

theorem reachedByVariants_subset (lookup : Lookup) (vs : List TransformVariant)
    (h : VariantsFormsSourceFree vs) :
    reachedByVariants lookup vs ⊆ Transform.sourcesOfVariants vs := by
  cases vs with
  | nil => exact List.Subset.refl _
  | cons v rest =>
    obtain ⟨key, value, isDefault⟩ := v
    exact List.append_subset.2
      ⟨List.subset_append_of_subset_left _ (reached_subset lookup value h.1),
        List.subset_append_of_subset_right _ (reachedByVariants_subset lookup rest h.2)⟩
termination_by structural vs

theorem reachedByParts_subset (lookup : Lookup) (parts : List Transform)
    (h : PartsFormsSourceFree parts) :
    reachedByParts lookup parts ⊆ Transform.sourcesOfParts parts := by
  cases parts with
  | nil => exact List.Subset.refl _
  | cons part rest =>
    exact List.append_subset.2
      ⟨List.subset_append_of_subset_left _ (reached_subset lookup part h.1),
        List.subset_append_of_subset_right _ (reachedByParts_subset lookup rest h.2)⟩
termination_by structural parts

theorem reachedByReplacements_subset (lookup : Lookup) (rs : List Replacement)
    (h : ReplacementsFormsSourceFree rs) :
    reachedByReplacements lookup rs ⊆ Transform.sourcesOfReplacements rs := by
  cases rs with
  | nil => exact List.Subset.refl _
  | cons r rest =>
    obtain ⟨placeholder, value⟩ := r
    exact List.append_subset.2
      ⟨List.subset_append_of_subset_left _ (reached_subset lookup value h.1),
        List.subset_append_of_subset_right _ (reachedByReplacements_subset lookup rest h.2)⟩
termination_by structural rs

theorem reachedByForm_subset (lookup : Lookup) (ofForm : Option (String → Transform))
    (h : ∀ f ∈ ofForm, ∀ form, (f form).sources = []) (form : String) :
    reachedByForm lookup form ofForm ⊆ [] := by
  cases ofForm with
  | none => exact List.Subset.refl _
  | some f =>
    have hnone := h f rfl form
    rw [← hnone]
    exact reached_subset lookup (f form) (formsSourceFree_of_sources _ hnone)
termination_by structural ofForm

end

namespace Template

/-- The sources that the value and the attributes of a template reach. -/
def reached (m : Template) (lookup : Lookup) : List SourceRef :=
  m.transforms.flatMap (Transform.reached lookup)

theorem reached_subset (lookup : Lookup) {m : Template}
    (h : ∀ t ∈ m.transforms, t.FormsSourceFree) : m.reached lookup ⊆ m.dependencies := by
  intro s hs
  obtain ⟨t, ht, hs⟩ := List.mem_flatMap.1 hs
  exact List.mem_eraseDups.2
    (List.mem_flatMap.2 ⟨t, ht, FluentMigration.reached_subset lookup t (h t ht) hs⟩)

end Template

theorem evaluateAttributes_of_reached {a b : Lookup} (hcategories : a.categories = b.categories)
    {templates : List AttributeTemplate}
    (h : ∀ x ∈ templates, ∀ s ∈ x.value.reached a, a.AgreeAt b s) :
    evaluateAttributes a templates = evaluateAttributes b templates := by
  induction templates with
  | nil => rfl
  | cons x rest ih =>
    rw [List.forall_mem_cons] at h
    simp only [evaluateAttributes, ih h.2, evaluate_of_reached hcategories x.value h.1]

/-- A template yields the same for lookups that agree on what it reaches. -/
theorem Template.evaluate_of_reached {a b : Lookup} (hcategories : a.categories = b.categories)
    {m : Template} (h : ∀ s ∈ m.reached a, a.AgreeAt b s) : m.evaluate a = m.evaluate b := by
  have hpart : ∀ t ∈ m.transforms, ∀ s ∈ t.reached a, a.AgreeAt b s :=
    fun t ht s hs => h s (List.mem_flatMap.2 ⟨t, ht, hs⟩)
  rw [Template.transforms, List.forall_mem_append, List.forall_mem_map] at hpart
  have hattributes := evaluateAttributes_of_reached hcategories hpart.2
  cases hv : m.value with
  | none => simp only [Template.evaluate, hv, hattributes]
  | some t =>
    have hvalue := FluentMigration.evaluate_of_reached hcategories t (hpart.1 t (by simp [hv]))
    simp only [Template.evaluate, hv, hattributes, hvalue]

end FluentMigration
