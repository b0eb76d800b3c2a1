import FluentMigration.Proofs.Evaluation.Plurals
/-!
Choosing between plural forms. The forms of a plural string belong to the categories by their
positions, in whatever order the locale lists them. If there are several, they become the variants
of one select expression: in canonical order, each category with its own form, and the last category
of the locale as the only default (`evaluate_plurals_exact`).
-/

namespace FluentMigration

open Fluent (Pattern Variant Inline)
open Plural (Category)

/-- A form that is not empty stands in a plural string where the category stands in the list. -/
def HasForm (categories : List Category) (value : String) (category : Category) (form : String) :
    Prop :=
  ∃ (i : Nat) (piece : List Char), categories[i]? = some category ∧
    (Text.splitOn ';' value.toList)[i]? = some piece ∧
    form = String.ofList (Text.trim Text.isBlank piece) ∧ form ≠ ""

theorem mem_pluralForms_iff {categories : List Category} {value form : String}
    {category : Category} :
    (category, form) ∈ pluralForms categories value ↔ HasForm categories value category form := by
  rw [pluralForms, List.mem_filter, List.mem_iff_getElem?]
  constructor
  · rintro ⟨⟨i, hi⟩, hform⟩
    obtain ⟨hcategory, hpiece⟩ := List.getElem?_zip_eq_some.1 hi
    rw [List.getElem?_map, List.getElem?_map, Option.map_map, Option.map_eq_some_iff] at hpiece
    obtain ⟨piece, hpiece, rfl⟩ := hpiece
    exact ⟨i, piece, hcategory, hpiece, rfl, by simpa [String.isEmpty_iff] using hform⟩
  · rintro ⟨i, piece, hcategory, hpiece, rfl, hne⟩
    refine ⟨⟨i, List.getElem?_zip_eq_some.2 ⟨hcategory, ?_⟩⟩, ?_⟩
    · rw [List.getElem?_map, List.getElem?_map, hpiece]
      rfl
    · simpa [String.isEmpty_iff] using hne

theorem pairwise_sorted_pluralForms {categories : List Category} (h : categories.Nodup)
    (value : String) :
    ((pluralForms categories value).mergeSort fun a b => a.1 ≤ b.1).Pairwise
      fun a b => a.1.rank < b.1.rank := by
  have hkeys : ((pluralForms categories value).mergeSort fun a b => a.1 ≤ b.1).Pairwise
      fun a b => a.1 ≠ b.1 := by
    have hnodup : ((pluralForms categories value).map (·.1)).Nodup :=
      h.sublist (keys_pluralForms_sublist categories value)
    rw [List.nodup_iff_pairwise_ne, List.pairwise_map] at hnodup
    exact hnodup.perm (List.mergeSort_perm _ _).symm fun hne => hne.symm
  refine (pairwise_sortForms _).imp₂ (fun a b hle hne => ?_) hkeys
  exact Nat.lt_of_le_of_ne hle fun hrank => hne (Category.rank_injective hrank)

/-- What a choice is made of, each form with its category. -/
structure PluralChoice (categories : List Category) (value : String)
    (chosen : List (Category × String)) : Prop where
  increasing : chosen.Pairwise fun a b => a.1.rank < b.1.rank
  /-- The categories that have a form, and the last one of the locale. -/
  keys : ∀ c, c ∈ chosen.map (·.1) ↔
    (∃ form, HasForm categories value c form) ∨ c = Category.last categories
  own : ∀ c form, HasForm categories value c form → (c, form) ∈ chosen
  /-- Without a form of its own, the last category has that of the highest one with a form. -/
  filled : (∀ form, ¬ HasForm categories value (Category.last categories) form) →
    ∃ highest form, HasForm categories value highest form ∧
      (∀ c other, HasForm categories value c other → c ≤ highest) ∧
      (Category.last categories, form) ∈ chosen

theorem PluralChoice.last {categories : List Category} {value : String}
    {chosen : List (Category × String)} (h : PluralChoice categories value chosen) :
    ∃ init form, chosen = init ++ [(Category.last categories, form)] ∧
      ∀ f ∈ init, f.1 ≠ Category.last categories := by
  obtain ⟨f, hf, hlast⟩ := List.mem_map.1 ((h.keys (Category.last categories)).2 (.inr rfl))
  obtain ⟨init, rest, rfl⟩ := List.append_of_mem hf
  obtain ⟨-, hrest, hinit⟩ := List.pairwise_append.1 h.increasing
  have hnil : rest = [] := by
    refine List.eq_nil_iff_forall_not_mem.2 fun g hg => ?_
    -- What comes after the last category would be listed, or be the last category again.
    have hlt : f.1.rank < g.1.rank := (List.pairwise_cons.1 hrest).1 g hg
    have hle : g.1 ≤ Category.last categories := by
      have hkey : g.1 ∈ (init ++ f :: rest).map (·.1) :=
        List.mem_map_of_mem (List.mem_append_right _ (List.mem_cons_of_mem _ hg))
      rcases (h.keys g.1).1 hkey with ⟨form, hform⟩ | heq
      · exact Category.le_last (mem_pluralForms (mem_pluralForms_iff.2 hform)).1
      · rw [heq]
        exact Category.le_refl _
    rw [← hlast] at hle
    exact absurd hle (Nat.not_le_of_lt hlt)
  subst hnil
  refine ⟨init, f.2, by rw [← hlast], fun g hg heq => ?_⟩
  have hlt := hinit g hg f List.mem_cons_self
  rw [heq, hlast] at hlt
  exact Nat.lt_irrefl _ hlt

theorem pluralChoice_completeForms {categories : List Category} (hnodup : categories.Nodup)
    {value : String} (hne : pluralForms categories value ≠ []) :
    PluralChoice categories value
      (completeForms (Category.last categories) (pluralForms categories value)) := by
  have hincreasing := pairwise_sorted_pluralForms hnodup value
  have hmem : ∀ {f}, f ∈ (pluralForms categories value).mergeSort (fun a b => a.1 ≤ b.1) ↔
      HasForm categories value f.1 f.2 := List.mem_mergeSort.trans mem_pluralForms_iff
  obtain ⟨⟨highest, form⟩, hhighest, hlast, hle⟩ := exists_last_sortForms hne
  have hform := mem_pluralForms_iff.1 hhighest
  have hbound : ∀ c other, HasForm categories value c other → c ≤ highest :=
    fun c other h => hle _ (mem_pluralForms_iff.2 h)
  have hkeys : ∀ c, c ∈ ((pluralForms categories value).mergeSort fun a b => a.1 ≤ b.1).map
      (·.1) ↔ ∃ form, HasForm categories value c form := fun c => by
    simp [hmem]
  unfold completeForms
  simp only [hlast]
  split
  · next heq =>
    refine ⟨hincreasing, fun c => ?_, fun c other h => hmem.2 h, fun hnone => ?_⟩
    · rw [hkeys]
      refine ⟨.inl, fun h => h.elim id fun hc => ⟨form, ?_⟩⟩
      rwa [hc, ← heq]
    · exact absurd (heq ▸ hform) (hnone form)
  · next hne =>
    have habove : ∀ c other, HasForm categories value c other →
        c.rank < (Category.last categories).rank := fun c other h => by
      have hupper : highest ≤ Category.last categories := le_last_of_mem_pluralForms hhighest
      have hstrict : highest.rank ≠ (Category.last categories).rank :=
        fun hrank => hne (Category.rank_injective hrank)
      exact Nat.lt_of_le_of_lt (hbound c other h) (Nat.lt_of_le_of_ne hupper hstrict)
    refine ⟨?_, fun c => ?_, fun c other h => List.mem_append_left _ (hmem.2 h), fun _ => ?_⟩
    · refine List.pairwise_append.2 ⟨hincreasing, List.pairwise_singleton _ _, fun f hf g hg => ?_⟩
      rw [List.mem_singleton.1 hg]
      exact habove f.1 f.2 (hmem.1 hf)
    · rw [List.map_append, List.mem_append, hkeys]
      simp
    · exact ⟨highest, form, hform, hbound, by simp⟩

section

variable {pattern : String → Except Absent Pattern} {default : Category}
  {forms : List (Category × String)}

theorem pluralVariants_sound {variants : List Variant}
    (h : pluralVariants pattern default forms = .ok variants) :
    variants.map (·.key) = forms.map (fun f => .identifier f.1.name) ∧
      variants.map (fun v => .ok v.value) = forms.map (fun f => pattern f.2) ∧
      variants.map (·.isDefault) = forms.map (fun f => decide (f.1 = default)) := by
  induction forms generalizing variants with
  | nil =>
    cases h
    exact ⟨rfl, rfl, rfl⟩
  | cons f rest ih =>
    obtain ⟨category, form⟩ := f
    obtain ⟨p, hp, h⟩ := bind_eq_ok.1 h
    obtain ⟨others, hothers, h⟩ := bind_eq_ok.1 h
    cases h
    obtain ⟨hkeys, hvalues, hdefaults⟩ := ih hothers
    simp [hkeys, hvalues, hdefaults, hp]

/-- Without all the patterns there are no variants, and the first that is absent is the reason. -/
theorem pluralVariants_absent {absent : Absent}
    (h : pluralVariants pattern default forms = .error absent) :
    ∃ f ∈ forms, pattern f.2 = .error absent := by
  induction forms with
  | nil => cases h
  | cons f rest ih =>
    obtain ⟨category, form⟩ := f
    rw [pluralVariants] at h
    cases hform : pattern form with
    | error reason =>
      rw [hform] at h
      cases h
      exact ⟨_, List.mem_cons_self, hform⟩
    | ok p =>
      cases hothers : pluralVariants pattern default rest with
      | ok others =>
        rw [hform, hothers] at h
        cases h
      | error reason =>
        rw [hform, hothers] at h
        cases h
        obtain ⟨g, hg, habsent⟩ := ih hothers
        exact ⟨g, List.mem_cons_of_mem _ hg, habsent⟩

end

/-- The variants of a choice, each with the pattern of its form; the last one is the only default.
-/
structure PluralVariants (pattern : String → Except Absent Pattern)
    (chosen : List (Category × String)) (variants : List Variant) : Prop where
  keys : variants.map (·.key) = chosen.map fun f => .identifier f.1.name
  values : variants.map (fun v => .ok v.value) = chosen.map fun f => pattern f.2
  default : ∃ init last, variants = init ++ [last] ∧ last.isDefault = true ∧
    ∀ v ∈ init, v.isDefault = false

theorem PluralChoice.variants {categories : List Category} {value : String}
    {chosen : List (Category × String)} (h : PluralChoice categories value chosen)
    {pattern : String → Except Absent Pattern} {variants : List Variant}
    (hvariants : pluralVariants pattern (Category.last categories) chosen = .ok variants) :
    PluralVariants pattern chosen variants := by
  obtain ⟨hkeys, hvalues, hdefaults⟩ := pluralVariants_sound hvariants
  refine ⟨hkeys, hvalues, ?_⟩
  obtain ⟨init, form, rfl, hinit⟩ := h.last
  rw [List.map_append, List.map_eq_append_iff] at hdefaults
  obtain ⟨front, back, rfl, hfront, hback⟩ := hdefaults
  obtain ⟨last, rfl, hlast⟩ := List.map_eq_singleton_iff.1 hback
  refine ⟨front, last, rfl, by simpa using hlast, fun v hv => ?_⟩
  have hmem : v.isDefault ∈ init.map fun f => decide (f.1 = Category.last categories) :=
    hfront ▸ List.mem_map_of_mem hv
  obtain ⟨f, hf, heq⟩ := List.mem_map.1 hmem
  rw [← heq]
  exact decide_eq_false (hinit f hf)

/-- A choice with the patterns of all its forms, or what makes one of them absent. -/
theorem PluralChoice.evaluate {categories : List Category} {value : String}
    {chosen : List (Category × String)} (h : PluralChoice categories value chosen)
    (pattern : String → Except Absent Pattern) :
    ((∀ f ∈ chosen, ∃ p, pattern f.2 = .ok p) →
      ∃ variants, PluralVariants pattern chosen variants ∧
        pluralVariants pattern (Category.last categories) chosen = .ok variants) ∧
    ((∃ f ∈ chosen, ∃ absent, pattern f.2 = .error absent) →
      ∃ f ∈ chosen, ∃ absent, pattern f.2 = .error absent ∧
        pluralVariants pattern (Category.last categories) chosen = .error absent) := by
  cases hall : pluralVariants pattern (Category.last categories) chosen with
  | ok variants =>
    have hspec := h.variants hall
    refine ⟨fun _ => ⟨variants, hspec, rfl⟩, ?_⟩
    rintro ⟨f, hf, absent, habsent⟩
    have hmem : pattern f.2 ∈ variants.map fun v => .ok v.value := by
      rw [hspec.values]
      exact List.mem_map_of_mem hf
    obtain ⟨v, -, hv⟩ := List.mem_map.1 hmem
    cases hv.trans habsent
  | error absent =>
    obtain ⟨f, hf, habsent⟩ := pluralVariants_absent hall
    refine ⟨fun hpresent => ?_, fun _ => ⟨f, hf, absent, habsent, rfl⟩⟩
    obtain ⟨p, hp⟩ := hpresent f hf
    cases hp.symm.trans habsent

theorem pluralPattern_of_many {categories : List Category} {value : String}
    (h : 2 ≤ (pluralForms categories value).length) (selector : Inline)
    (pattern : String → Except Absent Pattern) :
    pluralPattern categories selector pattern value = (do
      let variants ← pluralVariants pattern (Category.last categories)
        (completeForms (Category.last categories) (pluralForms categories value))
      .ok ⟨[.placeable (.select selector variants)]⟩) := by
  rw [pluralPattern]
  split
  · next hnil =>
    rw [hnil] at h
    exact absurd h (by simp)
  · next hone =>
    rw [hone] at h
    exact absurd h (by simp)
  · rfl

/-- The pattern of a plural string in a locale that lists every category once: blank without forms,
a single form by itself, and otherwise one choice between them. If the pattern of a form in the
choice is absent, the whole is. -/
theorem evaluate_plurals_exact {lookup : Lookup} {source : LegacySource} {raw : String}
    (hraw : lookup.legacy source.ref = some raw) (hnodup : lookup.categories.Nodup)
    (selector : Inline) (ofForm : Option (String → Transform)) :
    let value := source.process raw
    let pattern := fun form => evaluateForm lookup form ofForm
    let result := (Transform.plurals source selector ofForm).evaluate lookup
    (pluralForms lookup.categories value = [] → result = .ok .blank) ∧
    (∀ category form, pluralForms lookup.categories value = [(category, form)] →
      result = pattern form) ∧
    (2 ≤ (pluralForms lookup.categories value).length →
      ∃ chosen, PluralChoice lookup.categories value chosen ∧
        ((∀ f ∈ chosen, ∃ p, pattern f.2 = .ok p) →
          ∃ variants, PluralVariants pattern chosen variants ∧
            result = .ok ⟨[.placeable (.select selector variants)]⟩) ∧
        ((∃ f ∈ chosen, ∃ absent, pattern f.2 = .error absent) →
          ∃ f ∈ chosen, ∃ absent, pattern f.2 = .error absent ∧ result = .error absent)) := by
  intro value pattern result
  have hresult : result = pluralPattern lookup.categories selector pattern value := by
    simp only [result, Transform.evaluate, Lookup.legacyValue, hraw]
    rfl
  refine ⟨fun hnone => ?_, fun category form hone => ?_, fun hmany => ?_⟩
  · rw [hresult, pluralPattern, hnone]
  · rw [hresult, pluralPattern, hone]
  · have hne : pluralForms lookup.categories value ≠ [] :=
      List.ne_nil_of_length_pos (Nat.lt_of_lt_of_le (by decide) hmany)
    have hchoice := pluralChoice_completeForms hnodup hne
    obtain ⟨hpresent, habsent⟩ := hchoice.evaluate pattern
    refine ⟨_, hchoice, fun hall => ?_, fun hsome => ?_⟩
    · obtain ⟨variants, hspec, hvariants⟩ := hpresent hall
      refine ⟨variants, hspec, ?_⟩
      rw [hresult, pluralPattern_of_many hmany, hvariants]
      rfl
    · obtain ⟨f, hf, absent, hform, hvariants⟩ := habsent hsome
      refine ⟨f, hf, absent, hform, ?_⟩
      rw [hresult, pluralPattern_of_many hmany, hvariants]
      rfl

/-- A string with two forms, and three categories that are not in canonical order. -/
def countedLookup : Lookup := ⟨fun _ => some "a #1; b", fun _ => none, [.few, .one, .many]⟩

def countedForm (form : String) : Transform :=
  .replace (.text form) [⟨"#1", .variableRef "n"⟩] false

/-- The last category takes the form of the highest one that has a form, not of the last one listed.
-/
theorem evaluate_plurals_exact_filled :
    ∃ chosen, PluralChoice [.few, .one, .many] "a #1; b" chosen ∧ ∃ variants,
      PluralVariants (fun form => evaluateForm countedLookup form (some countedForm)) chosen
        variants ∧
      (Transform.plurals (paddedSource none) (.variable "n") (some countedForm)).evaluate
        countedLookup = .ok ⟨[.placeable (.select (.variable "n") variants)]⟩ := by
  have hraw : countedLookup.legacy (paddedSource none).ref = some "a #1; b" := rfl
  have hnodup : countedLookup.categories.Nodup := by decide
  have hmany : 2 ≤ (pluralForms countedLookup.categories
      ((paddedSource none).process "a #1; b")).length := by decide
  obtain ⟨chosen, hchoice, hpresent, -⟩ :=
    (evaluate_plurals_exact hraw hnodup (.variable "n") (some countedForm)).2.2 hmany
  refine ⟨chosen, hchoice, hpresent fun f _ => ?_⟩
  have hforms := form_decidedBy (some countedForm)
    (fun g hg form => by
      cases hg
      rfl) f.2
  exact hforms.present countedLookup nofun

end FluentMigration
