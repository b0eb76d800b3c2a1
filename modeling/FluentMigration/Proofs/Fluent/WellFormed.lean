import FluentMigration.Proofs.Fluent.Words
/-!
Trees that Fluent source can spell: identifiers, callees and literals as they are written there,
named arguments with names of their own, selectors and placeables of the kinds the reader accepts,
one default variant for each choice. What the elements of every pattern have to be like is left to
`shape`.
-/

namespace FluentMigration
namespace Fluent

/-- Whether an expression can stand alone in a placeable. -/
def Inline.canStand : Inline → Bool
  | .term _ (some _) _ => false
  | _ => true

/-- Whether an expression can choose between variants. -/
def Inline.canSelect : Inline → Bool
  | .message _ _ => false
  | .term _ none _ => false
  | _ => true

def Inline.IsLiteral : Inline → Prop
  | .string raw => isStringContent 0 raw.toList = true
  | .number raw => isNumber raw.toList = true
  | _ => False

def NamedArgument.WellFormed (a : NamedArgument) : Prop :=
  isIdentifier a.name.toList = true ∧ a.value.IsLiteral

def VariantKey.WellFormed : VariantKey → Prop
  | .identifier name => isIdentifier name.toList = true
  | .number raw => isNumber raw.toList = true

def AccessorWellFormed (attr : Option String) : Prop :=
  ∀ a ∈ attr, isIdentifier a.toList = true

section

variable (shape : List Element → Prop)

mutual

def Inline.WellFormed : Inline → Prop
  | .string raw => isStringContent 0 raw.toList = true
  | .number raw => isNumber raw.toList = true
  | .variable id => isIdentifier id.toList = true
  | .message id attr => isIdentifier id.toList = true ∧ AccessorWellFormed attr
  | .term id attr arguments =>
    isIdentifier id.toList = true ∧ AccessorWellFormed attr ∧ OptionalWellFormed arguments
  | .function id arguments => isCallee id.toList = true ∧ arguments.WellFormed
  | .placeable content => content.WellFormed
termination_by structural x => x

def OptionalWellFormed : Option Arguments → Prop
  | none => True
  | some arguments => arguments.WellFormed
termination_by structural x => x

def Arguments.WellFormed : Arguments → Prop
  | ⟨positional, named⟩ =>
    InlinesWellFormed positional ∧ (∀ a ∈ named, a.WellFormed) ∧ (named.map (·.name)).Nodup
termination_by structural x => x

def InlinesWellFormed : List Inline → Prop
  | [] => True
  | e :: rest => e.WellFormed ∧ InlinesWellFormed rest
termination_by structural x => x

def Expression.WellFormed : Expression → Prop
  | .inline content => content.canStand = true ∧ content.WellFormed
  | .select selector variants =>
    selector.canSelect = true ∧ selector.WellFormed ∧
      variants.countP (·.isDefault) = 1 ∧ VariantsWellFormed variants
termination_by structural x => x

def VariantsWellFormed : List Variant → Prop
  | [] => True
  | v :: rest => v.WellFormed ∧ VariantsWellFormed rest
termination_by structural x => x

def Variant.WellFormed : Variant → Prop
  | ⟨key, value, _⟩ => key.WellFormed ∧ value.WellFormed
termination_by structural x => x

def Pattern.WellFormed : Pattern → Prop
  | ⟨elements⟩ => shape elements ∧ ElementsWellFormed elements
termination_by structural x => x

def ElementsWellFormed : List Element → Prop
  | [] => True
  | .text _ :: rest => ElementsWellFormed rest
  | .placeable content :: rest => content.WellFormed ∧ ElementsWellFormed rest
termination_by structural x => x

end

def Attribute.WellFormed (a : Attribute) : Prop :=
  isIdentifier a.id.toList = true ∧ a.value.WellFormed shape

/-- Comments hold no carriage return, messages have a value or an attribute, and nothing is junk. -/
def Entry.WellFormed : Entry → Prop
  | .message m =>
    isIdentifier m.id.toList = true ∧ (∀ value ∈ m.value, value.WellFormed shape) ∧
      (∀ a ∈ m.attributes, a.WellFormed shape) ∧ (m.value.isSome ∨ m.attributes ≠ []) ∧
      ∀ content ∈ m.comment, '\r' ∉ content.toList
  | .term t =>
    isIdentifier t.id.toList = true ∧ t.value.WellFormed shape ∧
      (∀ a ∈ t.attributes, a.WellFormed shape) ∧ ∀ content ∈ t.comment, '\r' ∉ content.toList
  | .comment _ content => '\r' ∉ content.toList
  | .junk _ => False

/-- Well formed, whatever the comments hold. -/
def Entry.WellShaped : Entry → Prop
  | .message m =>
    isIdentifier m.id.toList = true ∧ (∀ value ∈ m.value, value.WellFormed shape) ∧
      (∀ a ∈ m.attributes, a.WellFormed shape) ∧ (m.value.isSome ∨ m.attributes ≠ [])
  | .term t =>
    isIdentifier t.id.toList = true ∧ t.value.WellFormed shape ∧
      ∀ a ∈ t.attributes, a.WellFormed shape
  | .comment _ _ => True
  | .junk _ => False

def Entry.comment? : Entry → Option String
  | .message m => m.comment
  | .term t => t.comment
  | .comment _ content => some content
  | .junk _ => none

variable {shape} in
theorem Entry.wellFormed_iff {e : Entry} : e.WellFormed shape ↔
    e.WellShaped shape ∧ ∀ content ∈ e.comment?, '\r' ∉ content.toList := by
  cases e <;>
    simp [Entry.WellFormed, Entry.WellShaped, Entry.comment?, and_assoc]

end

section

-- The hypothesis is used through the recursion only by most of the theorems below.
set_option linter.unusedSectionVars false

variable {shape shape' : List Element → Prop} (hshape : ∀ es, shape es → shape' es)

include hshape

mutual

theorem Inline.WellFormed.mono (e : Inline) (h : e.WellFormed shape) : e.WellFormed shape' := by
  cases e with
  | string raw => exact h
  | number raw => exact h
  | «variable» id => exact h
  | message id attr => exact h
  | term id attr arguments => exact ⟨h.1, h.2.1, OptionalWellFormed.mono arguments h.2.2⟩
  | function id arguments => exact ⟨h.1, Arguments.WellFormed.mono arguments h.2⟩
  | placeable content => exact Expression.WellFormed.mono content h
termination_by structural e

theorem OptionalWellFormed.mono (arguments : Option Arguments)
    (h : OptionalWellFormed shape arguments) : OptionalWellFormed shape' arguments := by
  cases arguments with
  | none => trivial
  | some arguments => exact Arguments.WellFormed.mono arguments h
termination_by structural arguments

theorem Arguments.WellFormed.mono (arguments : Arguments) (h : arguments.WellFormed shape) :
    arguments.WellFormed shape' := by
  obtain ⟨positional, named⟩ := arguments
  exact ⟨InlinesWellFormed.mono positional h.1, h.2⟩
termination_by structural arguments

theorem InlinesWellFormed.mono (es : List Inline) (h : InlinesWellFormed shape es) :
    InlinesWellFormed shape' es := by
  cases es with
  | nil => trivial
  | cons e rest => exact ⟨Inline.WellFormed.mono e h.1, InlinesWellFormed.mono rest h.2⟩
termination_by structural es

theorem Expression.WellFormed.mono (e : Expression) (h : e.WellFormed shape) :
    e.WellFormed shape' := by
  cases e with
  | inline content => exact ⟨h.1, Inline.WellFormed.mono content h.2⟩
  | select selector variants =>
    exact ⟨h.1, Inline.WellFormed.mono selector h.2.1, h.2.2.1,
      VariantsWellFormed.mono variants h.2.2.2⟩
termination_by structural e

theorem VariantsWellFormed.mono (vs : List Variant) (h : VariantsWellFormed shape vs) :
    VariantsWellFormed shape' vs := by
  cases vs with
  | nil => trivial
  | cons v rest => exact ⟨Variant.WellFormed.mono v h.1, VariantsWellFormed.mono rest h.2⟩
termination_by structural vs

theorem Variant.WellFormed.mono (v : Variant) (h : v.WellFormed shape) : v.WellFormed shape' := by
  obtain ⟨key, value, isDefault⟩ := v
  exact ⟨h.1, Pattern.WellFormed.mono value h.2⟩
termination_by structural v

theorem Pattern.WellFormed.mono (p : Pattern) (h : p.WellFormed shape) : p.WellFormed shape' := by
  obtain ⟨elements⟩ := p
  exact ⟨hshape elements h.1, ElementsWellFormed.mono elements h.2⟩
termination_by structural p

theorem ElementsWellFormed.mono (es : List Element) (h : ElementsWellFormed shape es) :
    ElementsWellFormed shape' es := by
  cases es with
  | nil => trivial
  | cons e rest =>
    cases e with
    | text v => exact ElementsWellFormed.mono rest h
    | placeable content =>
      exact ⟨Expression.WellFormed.mono content h.1, ElementsWellFormed.mono rest h.2⟩
termination_by structural es

end

theorem Attribute.WellFormed.mono (a : Attribute) (h : a.WellFormed shape) :
    a.WellFormed shape' := ⟨h.1, Pattern.WellFormed.mono hshape a.value h.2⟩

theorem Entry.WellShaped.mono (e : Entry) (h : e.WellShaped shape) : e.WellShaped shape' := by
  cases e with
  | message m =>
    exact ⟨h.1, fun v hv => Pattern.WellFormed.mono hshape v (h.2.1 v hv),
      fun a ha => Attribute.WellFormed.mono hshape a (h.2.2.1 a ha), h.2.2.2⟩
  | term t =>
    exact ⟨h.1, Pattern.WellFormed.mono hshape t.value h.2.1,
      fun a ha => Attribute.WellFormed.mono hshape a (h.2.2 a ha)⟩
  | comment level content => exact h
  | junk j => exact h

theorem Entry.WellFormed.mono (e : Entry) (h : e.WellFormed shape) : e.WellFormed shape' :=
  have hparts := Entry.wellFormed_iff.1 h
  Entry.wellFormed_iff.2 ⟨Entry.WellShaped.mono hshape e hparts.1, hparts.2⟩

end

end Fluent
end FluentMigration
