import FluentMigration.Fluent.Basic
import FluentMigration.Text.Quoted
/-!
Expressions spelled out with the names of all their parts, for messages about an expression that
cannot be used where it stands.
-/

namespace FluentMigration
namespace Fluent

def optionalOutline (value : Option String) : String :=
  match value with
  | none => "None"
  | some text => "Some(" ++ text ++ ")"

def record (name : String) (parts : List (String × String)) : String :=
  let shown := parts.map fun (part, text) => part ++ ": " ++ text
  name ++ " \x7b " ++ ", ".intercalate shown ++ " \x7d"

def sequence (items : List String) : String := "[" ++ ", ".intercalate items ++ "]"

def VariantKey.outline : VariantKey → String
  | .identifier name => record "Identifier" [("name", Text.quote name)]
  | .number raw => record "NumberLiteral" [("value", Text.quote raw)]

mutual

def Inline.outline : Inline → String
  | .string raw => record "StringLiteral" [("value", Text.quote raw)]
  | .number raw => record "NumberLiteral" [("value", Text.quote raw)]
  | .variable id => record "VariableReference" [("id", Text.quote id)]
  | .message id attr =>
    record "MessageReference"
      [("id", Text.quote id), ("attribute", optionalOutline (attr.map Text.quote))]
  | .term id attr arguments =>
    record "TermReference"
      [("id", Text.quote id), ("attribute", optionalOutline (attr.map Text.quote)),
        ("arguments", outlineOptional arguments)]
  | .function id arguments =>
    record "FunctionReference" [("id", Text.quote id), ("arguments", arguments.outline)]
  | .placeable content => record "Placeable" [("expression", content.outline)]
termination_by structural x => x

def outlineOptional : Option Arguments → String
  | none => optionalOutline none
  | some arguments => optionalOutline (some arguments.outline)
termination_by structural x => x

def Arguments.outline : Arguments → String
  | ⟨positional, named⟩ =>
    record "CallArguments"
      [("positional", sequence (outlineInlines positional)),
        ("named", sequence (outlineNamed named))]
termination_by structural x => x

def outlineInlines : List Inline → List String
  | [] => []
  | e :: rest => e.outline :: outlineInlines rest
termination_by structural x => x

def outlineNamed : List NamedArgument → List String
  | [] => []
  | a :: rest => a.outline :: outlineNamed rest
termination_by structural x => x

def NamedArgument.outline : NamedArgument → String
  | ⟨name, value⟩ => record "NamedArgument" [("name", Text.quote name), ("value", value.outline)]
termination_by structural x => x

def Expression.outline : Expression → String
  | .inline content => "Inline(" ++ content.outline ++ ")"
  | .select selector variants =>
    "Select(" ++
      record "SelectExpression"
        [("selector", selector.outline), ("variants", sequence (outlineVariants variants))] ++ ")"
termination_by structural x => x

def outlineVariants : List Variant → List String
  | [] => []
  | v :: rest => v.outline :: outlineVariants rest
termination_by structural x => x

def Variant.outline : Variant → String
  | ⟨key, value, isDefault⟩ =>
    record "Variant"
      [("key", key.outline), ("value", value.outline), ("default", toString isDefault)]
termination_by structural x => x

def Pattern.outline : Pattern → String
  | ⟨elements⟩ => record "Pattern" [("elements", sequence (outlineElements elements))]
termination_by structural x => x

def outlineElements : List Element → List String
  | [] => []
  | .text value :: rest => ("Text(" ++ Text.quote value ++ ")") :: outlineElements rest
  | .placeable content :: rest =>
    ("Placeable(" ++ content.outline ++ ")") :: outlineElements rest
termination_by structural x => x

end

end Fluent
end FluentMigration
