import FluentMigration.Proofs.Evaluation.Copies
import FluentMigration.Proofs.Evaluation.Reached
import FluentMigration.Proofs.Text.Trimming
/-!
Plural strings whose forms are not rewritten. Their pattern is the text of the only form, or a
select expression with the forms in the order of their categories (`evaluate_plurals`). The default
category is the last of the locale; if it has no form, the last form stands for it, so there is
always a default variant (`countP_completeForms`).
-/

namespace FluentMigration

open Fluent (Pattern Variant Inline)
open Plural (Category)

theorem mem_pluralForms {categories : List Category} {value form : String} {category : Category}
    (h : (category, form) ∈ pluralForms categories value) :
    category ∈ categories ∧ form.toList ≠ [] ∧
      ∃ piece ∈ Text.splitOn ';' value.toList, form.toList = Text.trim Text.isBlank piece := by
  obtain ⟨hzip, hform⟩ := List.mem_filter.1 h
  obtain ⟨hcategory, hform'⟩ := List.of_mem_zip hzip
  obtain ⟨_, htrim, rfl⟩ := List.mem_map.1 hform'
  obtain ⟨piece, hpiece, rfl⟩ := List.mem_map.1 htrim
  rw [String.toList_ofList]
  exact ⟨hcategory, by simpa using hform, piece, hpiece, rfl⟩

theorem le_last_of_mem_pluralForms {categories : List Category} {value : String}
    {f : Category × String} (h : f ∈ pluralForms categories value) :
    f.1 ≤ Category.last categories :=
  Category.le_last (mem_pluralForms h).1

theorem keys_pluralForms_sublist (categories : List Category) (value : String) :
    ((pluralForms categories value).map (·.1)).Sublist categories := by
  have htake : ∀ forms : List String, ((categories.zip forms).map (·.1)).Sublist categories := by
    intro forms
    rw [List.zip_eq_zip_take_min, List.map_fst_zip (by simp)]
    exact List.take_sublist _ _
  exact (List.filter_sublist.map _).trans (htake _)

theorem pairwise_sortForms (forms : List (Category × String)) :
    (forms.mergeSort fun a b => a.1 ≤ b.1).Pairwise fun a b => a.1 ≤ b.1 := by
  have htrans : ∀ a b c : Category × String, decide (a.1 ≤ b.1) → decide (b.1 ≤ c.1) →
      decide (a.1 ≤ c.1) := fun a b c hab hbc =>
    decide_eq_true (Category.le_trans (of_decide_eq_true hab) (of_decide_eq_true hbc))
  have htotal : ∀ a b : Category × String, decide (a.1 ≤ b.1) || decide (b.1 ≤ a.1) :=
    fun a b => by simpa using Category.le_total a.1 b.1
  exact (List.pairwise_mergeSort htrans htotal forms).imp of_decide_eq_true

theorem exists_last_sortForms {forms : List (Category × String)} (hne : forms ≠ []) :
    ∃ last ∈ forms, (forms.mergeSort fun a b => a.1 ≤ b.1).getLast? = some last ∧
      ∀ f ∈ forms, f.1 ≤ last.1 := by
  have hperm := List.mergeSort_perm forms fun a b => decide (a.1 ≤ b.1)
  have hsorted := pairwise_sortForms forms
  generalize (forms.mergeSort fun a b => a.1 ≤ b.1) = sorted at hperm hsorted ⊢
  have hne' : sorted ≠ [] := fun hnil => hne (List.nil_perm.1 (hnil ▸ hperm))
  obtain ⟨init, last, rfl⟩ := List.eq_nil_or_concat sorted |>.resolve_left hne'
  rw [List.concat_eq_append] at hperm hsorted ⊢
  refine ⟨last, hperm.mem_iff.1 List.mem_concat_self, List.getLast?_concat, fun f hf => ?_⟩
  rcases List.mem_append.1 (hperm.mem_iff.2 hf) with hf | hf
  · exact (List.pairwise_append.1 hsorted).2.2 f hf last List.mem_cons_self
  · rw [List.mem_singleton.1 hf]
    exact Category.le_refl _

/-- Either one of the forms has the default category, or the last form is added for it. -/
theorem completeForms_eq {default : Category} {forms : List (Category × String)}
    (h : ∀ f ∈ forms, f.1 ≤ default) (hne : forms ≠ []) :
    let sorted := forms.mergeSort fun a b => a.1 ≤ b.1
    completeForms default forms = sorted ∧ (∃ f ∈ forms, f.1 = default) ∨
      (∃ form, completeForms default forms = sorted ++ [(default, form)]) ∧
        ∀ f ∈ forms, f.1 ≠ default := by
  intro sorted
  obtain ⟨last, hmem, hlast, hle⟩ := exists_last_sortForms hne
  have hcomplete : completeForms default forms =
      if last.1 = default then sorted else sorted ++ [(default, last.2)] := by
    simp only [completeForms, sorted]
    rw [hlast]
  rw [hcomplete]
  split
  · next hdefault => exact .inl ⟨rfl, last, hmem, hdefault⟩
  · next hdefault =>
    exact .inr ⟨⟨last.2, rfl⟩, fun f hf heq =>
      hdefault (Category.le_antisymm (h last hmem) (heq ▸ hle f hf))⟩

/-- There is a default form for each form of the default category, and there always is one. -/
theorem countP_completeForms {default : Category} {forms : List (Category × String)}
    (h : ∀ f ∈ forms, f.1 ≤ default) (hne : forms ≠ []) :
    (completeForms default forms).countP (·.1 = default) =
      max 1 (forms.countP (·.1 = default)) := by
  have hperm := List.mergeSort_perm forms fun a b => decide (a.1 ≤ b.1)
  rcases completeForms_eq h hne with ⟨heq, f, hf, hdefault⟩ | ⟨⟨form, heq⟩, hnone⟩
  · have hpos : 0 < forms.countP (·.1 = default) :=
      List.countP_pos_iff.2 ⟨f, hf, by simpa using hdefault⟩
    rw [heq, hperm.countP_eq]
    omega
  · have hzero : forms.countP (·.1 = default) = 0 :=
      List.countP_eq_zero.2 fun f hf => by simpa using hnone f hf
    rw [heq, List.countP_append, hperm.countP_eq, hzero]
    simp

theorem completeForms_zip {categories : List Category} {forms : List String}
    (hlength : categories.length = forms.length) (hne : categories ≠ []) :
    (completeForms (Category.last categories) (categories.zip forms)).Perm
      (categories.zip forms) := by
  have hkeys : (categories.zip forms).map (·.1) = categories :=
    List.map_fst_zip (Nat.le_of_eq hlength)
  have hle : ∀ f ∈ categories.zip forms, f.1 ≤ Category.last categories := fun f hf =>
    Category.le_last (List.of_mem_zip hf).1
  have hzip : categories.zip forms ≠ [] := fun hnil => hne (by rw [← hkeys, hnil]; rfl)
  rcases completeForms_eq hle hzip with ⟨heq, -⟩ | ⟨-, hnone⟩
  · rw [heq]
    exact List.mergeSort_perm _ _
  · have hlast := Category.last_mem hne
    rw [← hkeys] at hlast
    obtain ⟨f, hf, hdefault⟩ := List.mem_map.1 hlast
    rw [hkeys] at hdefault
    exact absurd hdefault (hnone f hf)

theorem noNewline_join {texts : List (List Char)} (h : ∀ t ∈ texts, '\n' ∉ t) :
    '\n' ∉ Text.join [';'] texts := by
  intro hm
  rcases Text.mem_join hm with hsep | ⟨t, ht, hc⟩
  · cases List.mem_singleton.1 hsep
  · exact h t ht hc

/-- Whether a string of one line is trimmed before or after it is split makes no difference. -/
theorem map_trim_splitOn_process (source : LegacySource) {s : List Char} (h : '\n' ∉ s) :
    (Text.splitOn ';' (source.process (String.ofList s)).toList).map (Text.trim Text.isBlank) =
      (Text.splitOn ';' s).map (Text.trim Text.isBlank) := by
  unfold LegacySource.process
  split
  · rw [String.toList_ofList]
  · rw [Text.trimLines_eq, Text.trimEach, String.toList_ofList, String.toList_ofList,
      Text.splitOn_of_not_mem h, List.map_singleton, Text.join,
      Text.map_trim_splitOn_trim (fun c hc => ?_) rfl,
      Text.map_trim_splitOn_trim (fun c hc => ?_) rfl]
    · simp only [Text.isSpaceOrTab, Bool.or_eq_true, beq_iff_eq] at hc
      rcases hc with rfl | rfl <;> rfl
    · simp only [Text.isLineBreak, Bool.or_eq_true, beq_iff_eq] at hc
      rcases hc with rfl | rfl <;> rfl

theorem pluralForms_join (source : LegacySource) {categories : List Category}
    {texts : List (List Char)} (hne : texts ≠ []) (hlines : ∀ t ∈ texts, '\n' ∉ t)
    (hblank : ∀ t ∈ texts, Text.trim Text.isBlank t ≠ []) (hsep : ∀ t ∈ texts, ';' ∉ t) :
    pluralForms categories (source.process (String.ofList (Text.join [';'] texts))) =
      categories.zip (texts.map (String.ofList ∘ Text.trim Text.isBlank)) := by
  rw [pluralForms, map_trim_splitOn_process source (noNewline_join hlines),
    Text.splitOn_join hne hsep, List.map_map]
  refine List.filter_eq_self.2 fun f hf => ?_
  obtain ⟨t, ht, htext⟩ := List.mem_map.1 (List.of_mem_zip hf).2
  simpa [← htext] using hblank t ht

def formVariant (default : Category) (form : Category × String) : Variant :=
  ⟨.identifier form.1.name, textPattern form.2, form.1 = default⟩

/-- The variants of plural forms, that of the last category being the default. -/
def formVariants (categories : List Category) (forms : List (Category × String)) : List Variant :=
  (completeForms (Category.last categories) forms).map (formVariant (Category.last categories))

def pluralTexts (categories : List Category) (selector : Inline) (value : String) : Pattern :=
  let forms := pluralForms categories value
  if forms.length < 2 then textPattern ((forms.map (·.2)).headD "")
  else ⟨[.placeable (.select selector (formVariants categories forms))]⟩

theorem pluralVariants_text (default : Category) (forms : List (Category × String)) :
    pluralVariants (fun form => .ok (textPattern form)) default forms =
      .ok (forms.map (formVariant default)) := by
  induction forms with
  | nil => rfl
  | cons form rest ih =>
    rw [pluralVariants, ih]
    rfl

theorem pluralPattern_text (categories : List Category) (selector : Inline) (value : String) :
    pluralPattern categories selector (fun form => .ok (textPattern form)) value =
      .ok (pluralTexts categories selector value) := by
  unfold pluralPattern pluralTexts
  cases pluralForms categories value with
  | nil => rfl
  | cons first rest =>
    cases rest with
    | nil => rfl
    | cons second rest =>
      simp only [pluralVariants_text]
      rfl

theorem evaluate_plurals {lookup : Lookup} {source : LegacySource} {value : String}
    (h : lookup.legacy source.ref = some value) (selector : Inline) :
    (Transform.plurals source selector none).evaluate lookup =
      .ok (pluralTexts lookup.categories selector (source.process value)) := by
  rw [← pluralPattern_text, Transform.evaluate, Lookup.legacyValue, h]
  rfl

theorem textPattern_injective {v w : String} (h : textPattern v = textPattern w) : v = w := by
  obtain ⟨_, _, _, hv, hvset⟩ := spell_textPattern v
  obtain ⟨_, _, _, hw, hwset⟩ := spell_textPattern w
  rw [h] at hv
  have hraw := congrArg Fluent.rawText (hv.symm.trans hw)
  rw [hvset.rawText, hwset.rawText] at hraw
  exact String.toList_inj.1 hraw

theorem textPattern_ne_select (v : String) (selector : Inline) (variants : List Variant) :
    textPattern v ≠ ⟨[.placeable (.select selector variants)]⟩ := by
  intro h
  have hliteral := isLiteral_textPattern v (.select selector variants) (by
    rw [h]
    exact List.mem_singleton_self _)
  cases hliteral

theorem pluralTexts_eq_select {categories : List Category} {selector : Inline} {value : String}
    {variants : List Variant}
    (h : pluralTexts categories selector value = ⟨[.placeable (.select selector variants)]⟩) :
    variants = formVariants categories (pluralForms categories value) := by
  simp only [pluralTexts] at h
  split at h
  · exact absurd h (textPattern_ne_select _ _ _)
  · simpa using h.symm

/-- A variant has a category and its text exactly if the form does. -/
theorem exists_formVariant_iff {categories : List Category} {forms : List (Category × String)}
    {category : Category} {text : String} :
    (∃ v ∈ formVariants categories forms,
        v.key = .identifier category.name ∧ v.value = textPattern text) ↔
      (category, text) ∈ completeForms (Category.last categories) forms := by
  constructor
  · rintro ⟨v, hv, hname, htext⟩
    obtain ⟨⟨found, form⟩, hmem, rfl⟩ := List.mem_map.1 hv
    obtain rfl : form = text := textPattern_injective htext
    have hsame : Category.ofName? found.name = Category.ofName? category.name :=
      congrArg _ (Fluent.VariantKey.identifier.inj hname)
    rw [Category.ofName?_name, Category.ofName?_name, Option.some.injEq] at hsame
    rwa [hsame] at hmem
  · intro hmem
    exact ⟨_, List.mem_map.2 ⟨_, hmem, rfl⟩, rfl, rfl⟩

end FluentMigration
