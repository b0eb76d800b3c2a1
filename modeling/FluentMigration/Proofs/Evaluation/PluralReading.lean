import FluentMigration.Config
import FluentMigration.Proofs.Evaluation.Plurals
import FluentMigration.Proofs.Fluent.Defaults
/-!
Reading plural messages back. The variants of a plural string are well formed, so its message is
read back unless there are several default variants, and there are as many as forms of the last
category. The categories of a configuration are any list that is not empty: if its last category
occurs once, every plural string is read back, and otherwise some are not
(`Config.plurals_readable_iff`).
-/

namespace FluentMigration

open Fluent (Pattern Variant Inline Resource)
open Plural (Category)

theorem noReturn_of_mem_pluralForms {categories : List Category} {value : String}
    (h : '\r' ∉ value.toList) {f : Category × String} (hf : f ∈ pluralForms categories value) :
    '\r' ∉ f.2.toList := by
  obtain ⟨-, -, piece, hpiece, htrim⟩ := mem_pluralForms hf
  rw [htrim]
  exact fun hm => h (Text.mem_of_mem_splitOn hpiece (Text.mem_trim hm))

theorem isIdentifier_categoryName (c : Category) : Fluent.isIdentifier c.name.toList = true := by
  cases c <;> decide

theorem wellFormed_formVariants {default : Category} {forms : List (Category × String)}
    (h : ∀ f ∈ forms, '\r' ∉ f.2.toList) :
    Fluent.VariantsWellFormed Fluent.Printable (forms.map (formVariant default)) := by
  induction forms with
  | nil => trivial
  | cons f rest ih =>
    rw [List.forall_mem_cons] at h
    exact ⟨⟨isIdentifier_categoryName f.1, printable_textPattern h.1⟩, ih h.2⟩

/-- There is a default variant for each form of the last category, and at least one. -/
theorem countP_formVariants {categories : List Category} {value : String}
    (hne : pluralForms categories value ≠ []) :
    (formVariants categories (pluralForms categories value)).countP (·.isDefault) =
      max 1 ((pluralForms categories value).countP (·.1 = Category.last categories)) := by
  rw [← countP_completeForms (fun f hf => le_last_of_mem_pluralForms hf) hne, formVariants,
    List.countP_map]
  rfl

def Fluent.Pattern.Readable (key : String) (p : Pattern) : Prop :=
  (Resource.parse (Resource.serialize ⟨[.message ⟨key, some p, [], none⟩]⟩)).junk = []

/-- A message with a choice that has a default variant is read back exactly if it has one only. -/
theorem Fluent.Pattern.readable_select_iff {key id : String} {vs : List Variant}
    (hkey : isIdentifier key.toList = true) (hid : isIdentifier id.toList = true)
    (hvs : VariantsWellFormed Printable vs) (hpos : 0 < vs.countP (·.isDefault)) :
    Pattern.Readable key ⟨[.placeable (.select (.variable id) vs)]⟩ ↔
      vs.countP (·.isDefault) ≤ 1 := by
  have hselector : (Inline.variable id).WellFormed Printable := hid
  constructor
  · exact fun hjunk => Nat.le_of_not_lt fun hlt =>
      junk_of_defaults hkey rfl hselector hvs hlt hjunk
  · intro hle
    have hprintable := (trimmed_placeable (.select (.variable id) vs)).printable nofun
    rw [Pattern.Readable, parse_serialize fun e he => ?_]
    · rfl
    · rw [List.mem_singleton.1 he]
      refine ⟨hkey, fun p hp => ?_, nofun, .inl rfl, nofun⟩
      cases hp
      exact ⟨hprintable, ⟨rfl, hselector, by omega, hvs⟩, trivial⟩

/-- A plural message is read back exactly if the last category has at most one form. -/
theorem pluralTexts_readable_iff {categories : List Category} {value id key : String}
    (hreturn : '\r' ∉ value.toList) (hid : Fluent.isIdentifier id.toList = true)
    (hkey : Fluent.isIdentifier key.toList = true) :
    (pluralTexts categories (.variable id) value).Readable key ↔
      (pluralForms categories value).countP (·.1 = Category.last categories) ≤ 1 := by
  have hforms : ∀ f ∈ pluralForms categories value, '\r' ∉ f.2.toList := fun f hf =>
    noReturn_of_mem_pluralForms hreturn hf
  unfold pluralTexts
  by_cases hshort : (pluralForms categories value).length < 2
  · have htext : '\r' ∉ (((pluralForms categories value).map (·.2)).headD "").toList := by
      cases hcases : pluralForms categories value with
      | nil => exact List.not_mem_nil
      | cons f rest => exact hforms f (hcases ▸ List.mem_cons_self)
    have hcount : (pluralForms categories value).countP (·.1 = Category.last categories) ≤
        (pluralForms categories value).length := List.countP_le_length
    rw [if_pos hshort, Pattern.Readable, parse_serialize_text hkey htext]
    exact iff_of_true rfl (by omega)
  · have hne : pluralForms categories value ≠ [] := fun hnil => hshort (by rw [hnil]; decide)
    have hvariants : Fluent.VariantsWellFormed Fluent.Printable
        (formVariants categories (pluralForms categories value)) :=
      wellFormed_formVariants fun f hf => by
        obtain ⟨g, hg, hsame⟩ := List.mem_map.1 (mem_completeForms hf)
        rw [← hsame]
        exact hforms g hg
    have hcount := countP_formVariants hne
    rw [if_neg hshort, Pattern.readable_select_iff hkey hid hvariants (by omega)]
    omega

theorem Config.categories_ne_nil {path text : String} {config : Config}
    (h : Config.parse path text = .ok config) : config.categories ≠ some [] := by
  unfold Config.parse at h
  split at h
  · cases h
  · split at h
    · cases h
    · next hne =>
      cases h
      exact hne

theorem countP_pluralForms_le (categories : List Category) (value : String) (c : Category) :
    (pluralForms categories value).countP (·.1 = c) ≤ categories.countP (· = c) := by
  have hle := (keys_pluralForms_sublist categories value).countP_le (p := (· = c))
  rwa [List.countP_map] at hle

def sameForms (categories : List Category) : String :=
  String.ofList (Text.join [';'] (categories.map fun _ => ['x']))

theorem noReturn_sameForms (categories : List Category) : '\r' ∉ (sameForms categories).toList := by
  rw [sameForms, String.toList_ofList]
  intro hm
  rcases Text.mem_join hm with hsep | ⟨l, hl, hc⟩
  · exact absurd hsep (by decide)
  · obtain ⟨c, -, rfl⟩ := List.mem_map.1 hl
    exact absurd hc (by decide)

theorem countP_sameForms (source : LegacySource) {categories : List Category} (h : categories ≠ [])
    (c : Category) :
    (pluralForms categories (source.process (sameForms categories))).countP (·.1 = c) =
      categories.countP (· = c) := by
  have hforms : ∀ P : List Char → Prop, P ['x'] → ∀ t ∈ categories.map fun _ => ['x'], P t :=
    fun P hx t ht => by
      obtain ⟨_, -, rfl⟩ := List.mem_map.1 ht
      exact hx
  rw [sameForms, pluralForms_join source (by simpa using h) (hforms _ (by decide))
    (hforms _ (by decide)) (hforms _ (by decide))]
  have hkeys : (categories.zip ((categories.map fun _ => ['x']).map
      (String.ofList ∘ Text.trim Text.isBlank))).map (·.1) = categories :=
    List.map_fst_zip (by simp)
  conv => rhs; rw [← hkeys, List.countP_map]
  rfl

theorem evaluate_plurals_readable (lookup : Lookup) (source : LegacySource) {value id key : String}
    (hvalue : lookup.legacy source.ref = some value) (hreturn : '\r' ∉ value.toList)
    (hid : Fluent.isIdentifier id.toList = true) (hkey : Fluent.isIdentifier key.toList = true) :
    ∃ p, (Transform.plurals source (.variable id) none).evaluate lookup = .ok p ∧
      (p.Readable key ↔ (pluralForms lookup.categories (source.process value)).countP
        (·.1 = Category.last lookup.categories) ≤ 1) :=
  ⟨_, evaluate_plurals hvalue _,
    pluralTexts_readable_iff (noReturn_process source hreturn) hid hkey⟩

/-- With the categories of a configuration, a plural message is read back exactly if the last
category has at most one form. So all plural messages are exactly if it is listed once. -/
theorem Config.plurals_readable_iff {path text : String} {config : Config}
    {categories : List Category} (hconfig : Config.parse path text = .ok config)
    (hcategories : config.options.categories = some categories) {id key : String}
    (hid : Fluent.isIdentifier id.toList = true) (hkey : Fluent.isIdentifier key.toList = true) :
    (∀ (lookup : Lookup) (source : LegacySource) (value : String),
      lookup.categories = categories → lookup.legacy source.ref = some value →
      '\r' ∉ value.toList →
      ∃ p, (Transform.plurals source (.variable id) none).evaluate lookup = .ok p ∧
        (p.Readable key ↔ (pluralForms categories (source.process value)).countP
          (·.1 = Category.last categories) ≤ 1)) ∧
    ((∀ (lookup : Lookup) (source : LegacySource) (value : String),
      lookup.categories = categories → lookup.legacy source.ref = some value →
      '\r' ∉ value.toList →
      ∃ p, (Transform.plurals source (.variable id) none).evaluate lookup = .ok p ∧
        p.Readable key) ↔
      categories.countP (· = Category.last categories) = 1) := by
  have hne : categories ≠ [] := fun hnil =>
    Config.categories_ne_nil hconfig (hcategories.trans (by rw [hnil]))
  refine ⟨?_, fun hall => ?_, fun hone => ?_⟩
  · rintro lookup source value rfl hvalue hreturn
    exact evaluate_plurals_readable lookup source hvalue hreturn hid hkey
  · -- In a string with the same form for all, each time the last category is listed is a default.
    have hreturn := noReturn_sameForms categories
    obtain ⟨p, hp, hread⟩ := hall ⟨fun _ => some (sameForms categories), fun _ => none, categories⟩
      (paddedSource none) _ rfl rfl hreturn
    obtain ⟨p', hp', hiff⟩ := evaluate_plurals_readable
      ⟨fun _ => some (sameForms categories), fun _ => none, categories⟩ (paddedSource none) rfl
      hreturn hid hkey
    cases hp.symm.trans hp'
    have hle : (pluralForms categories ((paddedSource none).process (sameForms categories))).countP
        (·.1 = Category.last categories) ≤ 1 := hiff.1 hread
    rw [countP_sameForms _ hne] at hle
    have hpos : 0 < categories.countP (· = Category.last categories) :=
      List.countP_pos_iff.2 ⟨_, Category.last_mem hne, by simp⟩
    omega
  · rintro lookup source value rfl hvalue hreturn
    obtain ⟨p, hp, hiff⟩ := evaluate_plurals_readable lookup source hvalue hreturn hid hkey
    exact ⟨p, hp, hiff.2 (hone ▸ countP_pluralForms_le _ _ _)⟩

def Config.ofCategories (categories : List Category) : Config :=
  { Config.empty with categories := some categories }

theorem Config.parse_listed :
    Config.parse "l10n-migrate.toml" "[migrate]\nplural-categories = ['few', 'one', 'many']\n" =
      .ok (Config.ofCategories [.few, .one, .many]) := by decide +kernel

theorem Config.plurals_readable_listed :
    ∃ p, (Transform.plurals (paddedSource none) (.variable "n") none).evaluate
        ⟨fun _ => some "a; b", fun _ => none, [.few, .one, .many]⟩ = .ok p ∧ p.Readable "m" :=
  (Config.plurals_readable_iff Config.parse_listed rfl rfl rfl).2.2 (by decide)
    ⟨fun _ => some "a; b", fun _ => none, [.few, .one, .many]⟩ (paddedSource none) "a; b" rfl rfl
    (by decide)

theorem Config.parse_repeated :
    Config.parse "l10n-migrate.toml" "[migrate]\nplural-categories = ['other', 'other']\n" =
      .ok (Config.ofCategories [.other, .other]) := by decide +kernel

theorem Config.plurals_readable_repeated :
    ¬ ∀ (path text : String) (config : Config) (categories : List Category),
      Config.parse path text = .ok config → config.options.categories = some categories →
      ∀ (lookup : Lookup) (source : LegacySource) (value id key : String),
        lookup.categories = categories → lookup.legacy source.ref = some value →
        '\r' ∉ value.toList → Fluent.isIdentifier id.toList = true →
        Fluent.isIdentifier key.toList = true →
        ∃ p, (Transform.plurals source (.variable id) none).evaluate lookup = .ok p ∧
          p.Readable key := by
  intro hall
  obtain ⟨p, hp, hread⟩ := hall _ _ _ _ Config.parse_repeated rfl
    ⟨fun _ => some "a;b", fun _ => none, [.other, .other]⟩ (paddedSource none) "a;b" "n" "m" rfl rfl
    (by decide) rfl rfl
  rw [evaluate_plurals rfl, Except.ok.injEq] at hp
  rw [← hp, pluralTexts_readable_iff (noReturn_process _ (by decide)) rfl rfl] at hread
  revert hread
  decide

end FluentMigration
