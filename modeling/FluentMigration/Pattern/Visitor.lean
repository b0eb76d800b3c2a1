import FluentMigration.Pattern.Normal
import FluentMigration.Text.Basic
/-!
Structural changes to patterns. A visitor says what stands in the place of each text and placeable;
the variants of a select expression are changed before the select expression is visited, and the
result is a normal pattern.
-/

namespace FluentMigration
namespace Fluent

structure Visitor where
  text : String → List Element
  inline : Inline → List Element
  select : Inline → List Variant → List Element

mutual

def walkExpression (v : Visitor) : Expression → List Element
  | .inline content => v.inline content
  | .select selector variants => v.select selector (walkVariants v variants)
termination_by structural x => x

def walkVariants (v : Visitor) : List Variant → List Variant
  | [] => []
  | variant :: rest => walkVariant v variant :: walkVariants v rest
termination_by structural x => x

def walkVariant (v : Visitor) : Variant → Variant
  | ⟨key, value, isDefault⟩ => ⟨key, value.walk v, isDefault⟩
termination_by structural x => x

def Pattern.walk (v : Visitor) : Pattern → Pattern
  | ⟨elements⟩ => .ofElements (walkElements v elements)
termination_by structural x => x

def walkElements (v : Visitor) : List Element → List Element
  | [] => []
  | .text value :: rest => v.text value ++ walkElements v rest
  | .placeable content :: rest => walkExpression v content ++ walkElements v rest
termination_by structural x => x

end

namespace Visitor

def keep : Visitor where
  text value := [.text value]
  inline content := [.ofInline content]
  select selector variants := [.placeable (.select selector variants)]

def replacing (v : Visitor) (word other : String) : Visitor :=
  { v with text := fun value => [.text (Text.replace word other value)] }

/-- Puts a pattern in the place of every reference to a term. -/
def substituting (v : Visitor) (term : String) (pattern : Pattern) : Visitor :=
  { v with
    inline := fun
      | .term id attr arguments =>
        if id = term then pattern.elements else v.inline (.term id attr arguments)
      | content => v.inline content }

/-- Keeps of every select expression only its first default variant. -/
def flattening (v : Visitor) : Visitor :=
  { v with
    select := fun selector variants =>
      match variants.find? (·.isDefault) with
      | some variant => variant.value.elements
      | none => v.select selector variants }

end Visitor
end Fluent
end FluentMigration
