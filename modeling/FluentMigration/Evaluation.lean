import FluentMigration.Error
import FluentMigration.Plural.Category
import FluentMigration.Text.Basic
import FluentMigration.Transform.Template
/-!
Evaluation of transforms against the strings of the source files. A missing string makes what needs
it absent: a concatenation or replacement with an absent part, a select expression whose default is
absent, a message whose value is absent. A variant other than the default and an attribute are
merely left out, unless nothing else is left of the message.
-/

namespace FluentMigration

structure Lookup where
  /-- The value of a key of a legacy file. -/
  legacy : SourceRef → Option String
  /-- The pattern of a message, attribute or term of a Fluent file. -/
  fluent : SourceRef → Option Fluent.Pattern
  /-- The plural categories of the target locale, in the order of its forms. -/
  categories : List Plural.Category

open Fluent (Pattern Element Variant)

def LegacySource.process (source : LegacySource) (value : String) : String :=
  if source.trim = some false then value else Text.trimLines value

namespace Lookup

def legacyValue (lookup : Lookup) (source : LegacySource) : Except Absent String :=
  match lookup.legacy source.ref with
  | some value => .ok (source.process value)
  | none => .error ⟨source.ref⟩

def fluentPattern (lookup : Lookup) (source : FluentSource) : Except Absent Pattern :=
  match lookup.fluent source.ref with
  | some pattern => .ok pattern
  | none => .error ⟨source.ref⟩

def baseText (lookup : Lookup) : ReplaceBase → Except Absent String
  | .source source => lookup.legacyValue source
  | .text value => .ok value

end Lookup

def textPattern (value : String) : Pattern := .ofElements [.text value]

/-- The elements of pieces of a text, the placeholders taken from `values`. -/
def elementsOfPieces (values : List (Except Absent Pattern)) :
    List Placeholder.Piece → Except Absent (List Element)
  | [] => .ok []
  | .text value :: rest => do
    let others ← elementsOfPieces values rest
    .ok (.text (String.ofList value) :: others)
  | .placeholder index :: rest => do
    let pattern ← values[index]?.getD (.ok ⟨[]⟩)
    let others ← elementsOfPieces values rest
    .ok (pattern.elements ++ others)

def splitText (printf : Bool) (replacements : List Replacement) (value : String) :
    List Placeholder.Piece :=
  let keys := replacements.map (·.placeholder.toList)
  if printf then Placeholder.splitPrintf keys value.toList else Placeholder.split keys value.toList

/-- The forms of a plural string with their categories; empty forms are left out. -/
def pluralForms (categories : List Plural.Category) (value : String) :
    List (Plural.Category × String) :=
  let forms := (Text.splitOn ';' value.toList).map (Text.trim Text.isBlank)
  (categories.zip (forms.map String.ofList)).filter (!·.2.isEmpty)

/-- Forms in the canonical order of their categories; unless the last of them has the category
`default`, its form stands for `default`, too. -/
def completeForms (default : Plural.Category) (forms : List (Plural.Category × String)) :
    List (Plural.Category × String) :=
  let sorted := forms.mergeSort fun a b => a.1 ≤ b.1
  match sorted.getLast? with
  | some (category, form) => if category = default then sorted else sorted ++ [(default, form)]
  | none => sorted

/-- The variants of plural forms, each form made a pattern by `pattern`. -/
def pluralVariants (pattern : String → Except Absent Pattern) (default : Plural.Category) :
    List (Plural.Category × String) → Except Absent (List Variant)
  | [] => .ok []
  | (category, form) :: rest => do
    let value ← pattern form
    let others ← pluralVariants pattern default rest
    .ok (⟨.identifier category.name, value, category = default⟩ :: others)

/-- A plural string as a pattern: blank without forms, a single form by itself, and otherwise a
select expression whose default is the last category of the locale. -/
def pluralPattern (categories : List Plural.Category) (selector : Fluent.Inline)
    (pattern : String → Except Absent Pattern) (value : String) : Except Absent Pattern :=
  match pluralForms categories value with
  | [] => .ok .blank
  | [(_, form)] => pattern form
  | forms => do
    let default := Plural.Category.last categories
    let variants ← pluralVariants pattern default (completeForms default forms)
    .ok ⟨[.placeable (.select selector variants)]⟩

mutual

def Transform.evaluate (lookup : Lookup) : Transform → Except Absent Pattern
  | .text value => .ok (textPattern value)
  | .expression content => .ok ⟨[.ofInline content]⟩
  | .pattern value => .ok value
  | .select selector variants => do
    let variants ← evaluateVariants lookup variants
    .ok ⟨[.placeable (.select selector variants)]⟩
  | .copy source => do
    let value ← lookup.legacyValue source
    .ok (textPattern value)
  | .copyPattern source => lookup.fluentPattern source
  | .concat parts => do
    let elements ← evaluateParts lookup parts
    .ok (.ofElements elements)
  | .replace base replacements printf => do
    let value ← lookup.baseText base
    let values := evaluateReplacements lookup replacements
    let elements ← elementsOfPieces values (splitText printf replacements value)
    .ok (.ofElements elements)
  | .plurals source selector ofForm => do
    let value ← lookup.legacyValue source
    pluralPattern lookup.categories selector (fun form => evaluateForm lookup form ofForm) value
  | .transformPattern source visitor => do
    let pattern ← lookup.fluentPattern source
    .ok (pattern.walk visitor)
termination_by structural x => x

/-- The variants that are there; an absent default makes them all absent. -/
def evaluateVariants (lookup : Lookup) : List TransformVariant → Except Absent (List Variant)
  | [] => .ok []
  | ⟨key, value, isDefault⟩ :: rest =>
    match value.evaluate lookup with
    | .ok pattern => do
      let others ← evaluateVariants lookup rest
      .ok (⟨key, pattern, isDefault⟩ :: others)
    | .error absent => if isDefault then .error absent else evaluateVariants lookup rest
termination_by structural x => x

def evaluateParts (lookup : Lookup) : List Transform → Except Absent (List Element)
  | [] => .ok []
  | part :: rest => do
    let pattern ← part.evaluate lookup
    let others ← evaluateParts lookup rest
    .ok (pattern.elements ++ others)
termination_by structural x => x

def evaluateReplacements (lookup : Lookup) : List Replacement → List (Except Absent Pattern)
  | [] => []
  | ⟨_, value⟩ :: rest => value.evaluate lookup :: evaluateReplacements lookup rest
termination_by structural x => x

/-- A plural form; with no transform for it, its text. -/
def evaluateForm (lookup : Lookup) (form : String) :
    Option (String → Transform) → Except Absent Pattern
  | none => .ok (textPattern form)
  | some ofForm => (ofForm form).evaluate lookup
termination_by structural x => x

end

/-- The attributes that are there, and the last reason for one that is not. -/
def evaluateAttributes (lookup : Lookup) :
    List AttributeTemplate → List Fluent.Attribute × Option Absent
  | [] => ([], none)
  | a :: rest =>
    let (attributes, missing) := evaluateAttributes lookup rest
    match a.value.evaluate lookup with
    | .ok pattern => (⟨a.id, pattern⟩ :: attributes, missing)
    | .error absent => (attributes, some (missing.getD absent))

def Template.evaluate (lookup : Lookup) (m : Template) : Except Absent Fluent.Entry := do
  let value ← match m.value with
    | none => .ok none
    | some t => (t.evaluate lookup).map some
  let (attributes, missing) := evaluateAttributes lookup m.attributes
  match missing with
  | some absent =>
    if value.isNone && attributes.isEmpty then .error absent else .ok (m.entry value attributes)
  | none => .ok (m.entry value attributes)

end FluentMigration
