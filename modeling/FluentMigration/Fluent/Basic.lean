/-!
The Fluent syntax tree. Identifiers are kept without sigils (the term `-brand` has the id `brand`)
and literals as they are written, so escape sequences are not decoded. Equality of trees is
decidable although the types are nested: `Inline.same_iff` and its companions.
-/

namespace FluentMigration
namespace Fluent

inductive VariantKey where
  | identifier (name : String)
  | number (raw : String)
  deriving DecidableEq, Inhabited

def VariantKey.text : VariantKey → String
  | identifier name => name
  | number raw => raw

mutual

/-- What can stand in a placeable on one line, and in a selector or an argument. -/
inductive Inline where
  | string (raw : String)
  | number (raw : String)
  | variable (id : String)
  | message (id : String) (attr : Option String)
  | term (id : String) (attr : Option String) (arguments : Option Arguments)
  | function (id : String) (arguments : Arguments)
  | placeable (content : Expression)

structure Arguments where
  positional : List Inline
  named : List NamedArgument

structure NamedArgument where
  name : String
  value : Inline

inductive Expression where
  | inline (content : Inline)
  | select (selector : Inline) (variants : List Variant)

structure Variant where
  key : VariantKey
  value : Pattern
  isDefault : Bool

structure Pattern where
  elements : List Element

inductive Element where
  | text (value : String)
  | placeable (content : Expression)

end

instance : Inhabited Inline := ⟨.string ""⟩
instance : Inhabited Arguments := ⟨⟨[], []⟩⟩
instance : Inhabited Pattern := ⟨⟨[]⟩⟩
instance : Inhabited Element := ⟨.text ""⟩

def Element.ofInline (content : Inline) : Element := .placeable (.inline content)

def Element.literal (raw : String) : Element := .ofInline (.string raw)

/-- The text of the elements, if none of them is a placeable. -/
def plainText? : List Element → Option String
  | [] => some ""
  | .text value :: rest => (plainText? rest).map (value ++ ·)
  | .placeable _ :: _ => none

def Pattern.plainText? (pattern : Pattern) : Option String := Fluent.plainText? pattern.elements

mutual

def Inline.same : Inline → Inline → Bool
  | .string a, .string b => a == b
  | .number a, .number b => a == b
  | .variable a, .variable b => a == b
  | .message a x, .message b y => a == b && x == y
  | .term a x u, .term b y v => a == b && x == y && sameOptional u v
  | .function a u, .function b v => a == b && u.same v
  | .placeable a, .placeable b => a.same b
  | _, _ => false
termination_by structural x => x

def sameOptional : Option Arguments → Option Arguments → Bool
  | none, none => true
  | some u, some v => u.same v
  | _, _ => false
termination_by structural x => x

def Arguments.same : Arguments → Arguments → Bool
  | ⟨p, n⟩, ⟨q, m⟩ => sameInlines p q && sameNamed n m
termination_by structural x => x

def sameInlines : List Inline → List Inline → Bool
  | [], [] => true
  | a :: r, b :: t => a.same b && sameInlines r t
  | _, _ => false
termination_by structural x => x

def sameNamed : List NamedArgument → List NamedArgument → Bool
  | [], [] => true
  | a :: r, b :: t => a.same b && sameNamed r t
  | _, _ => false
termination_by structural x => x

def NamedArgument.same : NamedArgument → NamedArgument → Bool
  | ⟨a, x⟩, ⟨b, y⟩ => a == b && x.same y
termination_by structural x => x

def Expression.same : Expression → Expression → Bool
  | .inline a, .inline b => a.same b
  | .select a v, .select b w => a.same b && sameVariants v w
  | _, _ => false
termination_by structural x => x

def sameVariants : List Variant → List Variant → Bool
  | [], [] => true
  | a :: r, b :: t => a.same b && sameVariants r t
  | _, _ => false
termination_by structural x => x

def Variant.same : Variant → Variant → Bool
  | ⟨a, x, d⟩, ⟨b, y, e⟩ => a == b && x.same y && d == e
termination_by structural x => x

def Pattern.same : Pattern → Pattern → Bool
  | ⟨a⟩, ⟨b⟩ => sameElements a b
termination_by structural x => x

def sameElements : List Element → List Element → Bool
  | [], [] => true
  | a :: r, b :: t => a.same b && sameElements r t
  | _, _ => false
termination_by structural x => x

def Element.same : Element → Element → Bool
  | .text a, .text b => a == b
  | .placeable a, .placeable b => a.same b
  | _, _ => false
termination_by structural x => x

end

mutual

theorem Inline.same_iff (a b : Inline) : a.same b = true ↔ a = b := by
  cases a <;> cases b <;>
    simp [Inline.same, Arguments.same_iff, Expression.same_iff, sameOptional_iff, and_assoc]
termination_by structural a

theorem sameOptional_iff (a b : Option Arguments) : sameOptional a b = true ↔ a = b := by
  cases a <;> cases b <;> simp [sameOptional, Arguments.same_iff]
termination_by structural a

theorem Arguments.same_iff (a b : Arguments) : a.same b = true ↔ a = b := by
  obtain ⟨p, n⟩ := a
  obtain ⟨q, m⟩ := b
  simp [Arguments.same, sameInlines_iff, sameNamed_iff]
termination_by structural a

theorem sameInlines_iff (a b : List Inline) : sameInlines a b = true ↔ a = b := by
  cases a <;> cases b <;> simp [sameInlines, Inline.same_iff, sameInlines_iff]
termination_by structural a

theorem sameNamed_iff (a b : List NamedArgument) : sameNamed a b = true ↔ a = b := by
  cases a <;> cases b <;> simp [sameNamed, NamedArgument.same_iff, sameNamed_iff]
termination_by structural a

theorem NamedArgument.same_iff (a b : NamedArgument) : a.same b = true ↔ a = b := by
  obtain ⟨p, n⟩ := a
  obtain ⟨q, m⟩ := b
  simp [NamedArgument.same, Inline.same_iff]
termination_by structural a

theorem Expression.same_iff (a b : Expression) : a.same b = true ↔ a = b := by
  cases a <;> cases b <;> simp [Expression.same, Inline.same_iff, sameVariants_iff]
termination_by structural a

theorem sameVariants_iff (a b : List Variant) : sameVariants a b = true ↔ a = b := by
  cases a <;> cases b <;> simp [sameVariants, Variant.same_iff, sameVariants_iff]
termination_by structural a

theorem Variant.same_iff (a b : Variant) : a.same b = true ↔ a = b := by
  obtain ⟨p, n, d⟩ := a
  obtain ⟨q, m, e⟩ := b
  simp [Variant.same, Pattern.same_iff, and_assoc]
termination_by structural a

theorem Pattern.same_iff (a b : Pattern) : a.same b = true ↔ a = b := by
  obtain ⟨p⟩ := a
  obtain ⟨q⟩ := b
  simp [Pattern.same, sameElements_iff]
termination_by structural a

theorem sameElements_iff (a b : List Element) : sameElements a b = true ↔ a = b := by
  cases a <;> cases b <;> simp [sameElements, Element.same_iff, sameElements_iff]
termination_by structural a

theorem Element.same_iff (a b : Element) : a.same b = true ↔ a = b := by
  cases a <;> cases b <;> simp [Element.same, Expression.same_iff]
termination_by structural a

end

instance : DecidableEq Inline := fun a b => decidable_of_iff _ (a.same_iff b)
instance : DecidableEq Arguments := fun a b => decidable_of_iff _ (a.same_iff b)
instance : DecidableEq NamedArgument := fun a b => decidable_of_iff _ (a.same_iff b)
instance : DecidableEq Expression := fun a b => decidable_of_iff _ (a.same_iff b)
instance : DecidableEq Variant := fun a b => decidable_of_iff _ (a.same_iff b)
instance : DecidableEq Pattern := fun a b => decidable_of_iff _ (a.same_iff b)
instance : DecidableEq Element := fun a b => decidable_of_iff _ (a.same_iff b)

end Fluent
end FluentMigration
