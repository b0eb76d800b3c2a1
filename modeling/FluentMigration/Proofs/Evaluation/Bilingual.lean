import FluentMigration.Context
import FluentMigration.Proofs.Evaluation.Plurals
import FluentMigration.Proofs.Legacy.Po
/-!
Plural forms of po files. The reader joins them with semicolons in the order of their lines, and
evaluation splits the string at its semicolons again. So the forms reach the categories in the order
of their lines, whatever their indices are, and a form with a semicolon in it is taken apart
(`Context.evaluate_plurals_po`).
-/

namespace FluentMigration

open Fluent (Variant Inline)
open Legacy.Po (PluralEntry Strings)
open Plural (Category)

/-- No form has a semicolon, so no text with one is the text of a form. -/
theorem noSemicolon_of_mem_completeForms {default category : Category} {categories : List Category}
    {value : String} {text : List Char}
    (h : (category, String.ofList (Text.trim Text.isBlank text)) ∈
      completeForms default (pluralForms categories value)) : ';' ∉ text := by
  intro hsemicolon
  obtain ⟨⟨_, form⟩, hform, hsame⟩ := List.mem_map.1 (mem_completeForms h)
  obtain ⟨-, -, piece, hpiece, htrim⟩ := mem_pluralForms hform
  obtain rfl : form = String.ofList (Text.trim Text.isBlank text) := hsame
  rw [String.toList_ofList] at htrim
  have hin := Text.mem_trim_of_not (p := Text.isBlank) hsemicolon rfl
  rw [htrim] at hin
  exact Text.not_mem_of_mem_splitOn hpiece (Text.mem_trim hin)

def Legacy.Po.Strings.trimmed (s : Strings) : String :=
  String.ofList (Text.trim Text.isBlank s.text)

/-- There is a variant for each form, and the category with the index of a form carries its text. -/
structure Legacy.Po.PluralEntry.Carried (e : PluralEntry) (categories : List Category)
    (variants : List Variant) : Prop where
  length : variants.length = e.forms.length
  carries : ∀ f ∈ e.forms, ∀ category ∈ categories[f.1]?,
    ∃ v ∈ variants, v.key = .identifier category.name ∧ v.value = textPattern f.2.trimmed

def Legacy.Po.PluralEntry.joined (e : PluralEntry) : String :=
  String.ofList (Text.join [';'] (e.forms.map (·.2.text)))

/-- The string of an entry with plural forms can be looked up once its file has been read. -/
theorem Context.legacyValue_po {c : Context} {source : SourceRef} {text : String} {e : PluralEntry}
    (hfile : c.sources.get? source.path = some (.legacy (.parse .po text)))
    (hkey : source.key = e.key) (hfills : e.Fills text.toList)
    (hform : ∃ f ∈ e.forms, f.2.text ≠ []) :
    c.legacyValue source =
      some e.joined := by
  obtain ⟨line, endLine, hparse⟩ := PluralEntry.parse_eq hfills hform
  simp [Context.legacyValue, hfile, Legacy.Resource.parse, hparse, Legacy.Resource.get, hkey,
    Context.isVisible, PluralEntry.joined]

theorem Legacy.Po.PluralEntry.category_of_mem {e : PluralEntry} {categories : List Category}
    (hlength : categories.length = e.forms.length) {f : Nat × Strings} (hf : f ∈ e.forms) :
    ∃ category, categories[f.1]? = some category := by
  have hindex := e.indices.mem_iff.1 (List.mem_map.2 ⟨f, hf, rfl⟩)
  rw [List.mem_range, ← hlength] at hindex
  exact ⟨_, List.getElem?_eq_getElem hindex⟩

/-- Categories that are put together with the forms in the order of their lines. -/
theorem mem_zip_trimmed_iff {categories : List Category} (hcategories : categories.Nodup)
    {forms : List (Nat × Strings)} {index : Nat} {category : Category}
    (hcategory : categories[index]? = some category) {form : String} :
    (category, form) ∈ categories.zip (forms.map (·.2.trimmed)) ↔
      ∃ g ∈ forms[index]?, g.2.trimmed = form := by
  rw [List.mem_iff_getElem?]
  simp only [List.getElem?_zip_eq_some, List.getElem?_map, Option.map_eq_some_iff]
  constructor
  · rintro ⟨i, hi, g, hg, rfl⟩
    have hlt : i < categories.length := (List.getElem?_eq_some_iff.1 hi).1
    obtain rfl : i = index := (List.getElem?_inj hlt hcategories).1 (hi.trans hcategory.symm)
    exact ⟨g, hg, rfl⟩
  · rintro ⟨g, hg, rfl⟩
    exact ⟨index, hcategory, g, hg, rfl⟩

section

variable {e : PluralEntry} {categories : List Category} (htwo : 2 ≤ e.forms.length)
  (hlines : ∀ f ∈ e.forms, '\n' ∉ f.2.text)
  (hblank : ∀ f ∈ e.forms, Text.trim Text.isBlank f.2.text ≠ [])

include htwo hlines hblank

/-- Without semicolons every category has the form on the line with its number. -/
theorem pluralForms_joined (source : LegacySource) (hsep : ∀ f ∈ e.forms, ';' ∉ f.2.text) :
    pluralForms categories (source.process e.joined) =
      categories.zip (e.forms.map (·.2.trimmed)) := by
  have hne : e.forms.map (·.2.text) ≠ [] := fun hnil => by simp [List.map_eq_nil_iff.1 hnil] at htwo
  rw [PluralEntry.joined, pluralForms_join source hne (List.forall_mem_map.2 hlines)
    (List.forall_mem_map.2 hblank) (List.forall_mem_map.2 hsep), List.map_map]
  rfl

variable (hlength : categories.length = e.forms.length)

include hlength

theorem completeForms_joined (source : LegacySource) (hsep : ∀ f ∈ e.forms, ';' ∉ f.2.text) :
    (completeForms (Category.last categories)
      (pluralForms categories (source.process e.joined))).Perm
        (categories.zip (e.forms.map (·.2.trimmed))) := by
  rw [pluralForms_joined htwo hlines hblank source hsep]
  exact completeForms_zip (by rw [List.length_map, hlength])
    (List.ne_nil_of_length_pos (by omega))

variable (hcategories : categories.Nodup)

include hcategories

/-- If the categories carry the forms, the semicolons are those between the forms, and the form on
the line with the index of a form has its text. -/
theorem ordered_of_carried {source : LegacySource}
    (hcarried : e.Carried categories
      (formVariants categories (pluralForms categories (source.process e.joined)))) :
    (∀ f ∈ e.forms, ';' ∉ f.2.text) ∧
      ∀ f ∈ e.forms, ∀ g ∈ e.forms[f.1]?, g.2.trimmed = f.2.trimmed := by
  have hmem := fun f hf category hcategory =>
    exists_formVariant_iff.1 (hcarried.carries f hf category hcategory)
  have hsep : ∀ f ∈ e.forms, ';' ∉ f.2.text := fun f hf => by
    obtain ⟨category, hcategory⟩ := PluralEntry.category_of_mem hlength hf
    exact noSemicolon_of_mem_completeForms (hmem f hf category hcategory)
  refine ⟨hsep, fun f hf g hg => ?_⟩
  obtain ⟨category, hcategory⟩ := PluralEntry.category_of_mem hlength hf
  have hf := hmem f hf category hcategory
  rw [(completeForms_joined htwo hlines hblank hlength source hsep).mem_iff,
    mem_zip_trimmed_iff hcategories hcategory] at hf
  obtain ⟨g', hg', htext⟩ := hf
  cases hg'.symm.trans hg
  exact htext

theorem carried_of_ordered (source : LegacySource) (hsep : ∀ f ∈ e.forms, ';' ∉ f.2.text)
    (horder : ∀ f ∈ e.forms, ∀ g ∈ e.forms[f.1]?, g.2.trimmed = f.2.trimmed) :
    e.Carried categories
      (formVariants categories (pluralForms categories (source.process e.joined))) := by
  have hzip := completeForms_joined htwo hlines hblank hlength source hsep
  refine ⟨?_, fun f hf category hcategory => ?_⟩
  · rw [formVariants, List.length_map, hzip.length_eq]
    simp [hlength]
  · have hlt := (List.getElem?_eq_some_iff.1 hcategory).1
    have hg := List.getElem?_eq_getElem (hlength ▸ hlt)
    rw [exists_formVariant_iff, hzip.mem_iff, mem_zip_trimmed_iff hcategories hcategory]
    exact ⟨_, hg, horder f hf _ hg⟩

end

/-- A po file of one entry with plural forms of one line each, as many as there are categories. Each
category carries the form with its index exactly if no form has a semicolon and the forms stand in
the order of their indices, up to forms that are equal. -/
theorem Context.evaluate_plurals_po (c : Context) (source : LegacySource) (selector : Inline)
    {text : String} {e : PluralEntry}
    (hfile : c.sources.get? source.path = some (.legacy (.parse .po text)))
    (hkey : source.key = e.key) (hfills : e.Fills text.toList) (htwo : 2 ≤ e.forms.length)
    (hlines : ∀ f ∈ e.forms, '\n' ∉ f.2.text)
    (hblank : ∀ f ∈ e.forms, Text.trim Text.isBlank f.2.text ≠ [])
    (hcategories : c.categories.Nodup) (hlength : c.categories.length = e.forms.length) :
    ∃ p, (Transform.plurals source selector none).evaluate c.lookup = .ok p ∧
      ((∃ variants, p = ⟨[.placeable (.select selector variants)]⟩ ∧
          e.Carried c.categories variants) ↔
        (∀ f ∈ e.forms, ';' ∉ f.2.text) ∧
          ∀ f ∈ e.forms, ∀ g ∈ e.forms[f.1]?, g.2.trimmed = f.2.trimmed) := by
  obtain ⟨f, hf⟩ := List.exists_mem_of_length_pos (l := e.forms) (by omega)
  have hform : f.2.text ≠ [] := fun hnil => hblank f hf (by rw [hnil]; rfl)
  have hvalue : c.legacyValue source.ref = some e.joined :=
    Context.legacyValue_po hfile hkey hfills ⟨f, hf, hform⟩
  refine ⟨_, evaluate_plurals hvalue selector, ?_, ?_⟩
  · rintro ⟨variants, hp, hcarried⟩
    rw [pluralTexts_eq_select hp] at hcarried
    exact ordered_of_carried htwo hlines hblank hlength hcategories hcarried
  · rintro ⟨hsep, horder⟩
    refine ⟨_, ?_, carried_of_ordered htwo hlines hblank hlength hcategories source hsep horder⟩
    have hcount : ¬ (pluralForms c.categories (source.process e.joined)).length < 2 := by
      rw [pluralForms_joined htwo hlines hblank source hsep, List.length_zip, List.length_map]
      omega
    exact if_neg hcount

def Legacy.Po.Strings.single (text : String) : Strings where
  gap := [' ']
  first := text.toList
  more := []
  gap_blank := ⟨by simp, rfl⟩

/-- The forms in the order of their indices, the second over two lines. -/
def fileForms : PluralEntry where
  flags := []
  context := none
  id := .single "file"
  idPlural := .single "files"
  forms := [(0, .single " plik"), (1, { Strings.single "" with more := ["pliki".toList] })]
  notFuzzy := nofun
  notHeader := .inl (by decide)
  indices := .refl _

def swappedText : String :=
  "msgid \"file\"\nmsgid_plural \"files\"\nmsgstr[1] \"pliki\"\nmsgstr[0] \"plik\"\n"

def fileFormsSwapped : PluralEntry where
  flags := []
  context := none
  id := .single "file"
  idPlural := .single "files"
  forms := [(1, .single "pliki"), (0, .single "plik")]
  notFuzzy := nofun
  notHeader := .inl (by decide)
  indices := .swap _ _ _

/-- A locale with two plural categories whose po file has been read. -/
def bilingual (text : String) : Context :=
  { Context.new "en" none ⟨.empty, [], ""⟩ ⟨some [.one, .other], false⟩ with
    sources := Table.empty.insert "s.po" (.legacy (.parse .po text)) }

def fileSource : LegacySource := ⟨"s.po", "file", none, rfl⟩

theorem Context.evaluate_plurals_po_ordered :
    ∃ variants, (Transform.plurals fileSource (.variable "n") none).evaluate
        (bilingual ("# Files\nmsgid \"file\"\nmsgid_plural \"files\"\n" ++
          "msgstr[0] \" plik\"\n\n  msgstr[1] \"\"\n\"pliki\"\n")).lookup =
          .ok ⟨[.placeable (.select (.variable "n") variants)]⟩ ∧
      fileForms.Carried [.one, .other] variants := by
  obtain ⟨p, hp, hiff⟩ := Context.evaluate_plurals_po (bilingual
    ("# Files\nmsgid \"file\"\nmsgid_plural \"files\"\n" ++
      "msgstr[0] \" plik\"\n\n  msgstr[1] \"\"\n\"pliki\"\n")) fileSource (.variable "n")
    (e := fileForms) rfl (by decide) (by decide) (by decide) (by decide) (by decide) (by decide)
    (by decide)
  obtain ⟨variants, rfl, hcarried⟩ := hiff.2 ⟨by decide, by decide⟩
  exact ⟨variants, hp, hcarried⟩

/-- The first line has the form with index 1, and the first category carries it. -/
theorem Context.evaluate_plurals_po_swapped :
    ¬ ∀ (c : Context) (source : LegacySource) (selector : Inline) (text : String) (e : PluralEntry),
      c.sources.get? source.path = some (.legacy (.parse .po text)) → source.key = e.key →
      e.Fills text.toList → 2 ≤ e.forms.length → (∀ f ∈ e.forms, '\n' ∉ f.2.text) →
      (∀ f ∈ e.forms, Text.trim Text.isBlank f.2.text ≠ []) →
      c.categories.Nodup → c.categories.length = e.forms.length →
      ∃ variants, (Transform.plurals source selector none).evaluate c.lookup =
          .ok ⟨[.placeable (.select selector variants)]⟩ ∧ e.Carried c.categories variants := by
  intro hall
  obtain ⟨variants, hp, -, hcarries⟩ := hall (bilingual swappedText) fileSource (.variable "n")
    swappedText fileFormsSwapped rfl (by decide) (by decide) (by decide) (by decide) (by decide)
    (by decide) (by decide)
  have hcategories : (bilingual swappedText).lookup.categories = [.one, .other] := rfl
  have hvalue : (bilingual swappedText).legacyValue fileSource.ref = some fileFormsSwapped.joined :=
    Context.legacyValue_po rfl (by decide) (by decide) ⟨_, List.mem_cons_self, by decide⟩
  rw [evaluate_plurals hvalue, Except.ok.injEq, hcategories] at hp
  obtain ⟨v, hv, hname, htext⟩ := hcarries (0, .single "plik")
    (List.mem_cons_of_mem _ List.mem_cons_self) .one rfl
  rw [pluralTexts_eq_select hp] at hv
  have hmem := exists_formVariant_iff.1 ⟨v, hv, hname, htext⟩
  have hforms : pluralForms [.one, .other] (fileSource.process fileFormsSwapped.joined) =
      List.zip [.one, .other] ["pliki", "plik"] := by decide
  rw [hforms, (completeForms_zip (by decide) (by decide)).mem_iff] at hmem
  revert hmem
  decide

end FluentMigration
