import FluentMigration.Fluent.Resource
import FluentMigration.Transform.Basic
/-!
Message templates: a target message or term whose value and attributes are transforms.
-/

namespace FluentMigration

structure AttributeTemplate where
  id : String
  value : Transform

structure Template where
  /-- `id` for a message, `-id` for a term. -/
  key : String
  value : Option Transform
  attributes : List AttributeTemplate
  comment : Option String

namespace Template

def ofKey (key : String) : Template := ⟨key, none, [], none⟩

def isTerm (m : Template) : Bool := m.key.toList.head? == some '-'

def identifier (m : Template) : String :=
  match m.key.toList with
  | '-' :: id => String.ofList id
  | _ => m.key

def transforms (m : Template) : List Transform :=
  m.value.toList ++ m.attributes.map (·.value)

def dependencies (m : Template) : List SourceRef :=
  (m.transforms.flatMap Transform.sources).eraseDups

def fluentSources (m : Template) : List FluentSource :=
  m.transforms.flatMap Transform.fluentSources

/-- The entry of a template: a term has always a value, a message may have none. -/
def entry (m : Template) (value : Option Fluent.Pattern) (attributes : List Fluent.Attribute) :
    Fluent.Entry :=
  if m.isTerm then .term ⟨m.identifier, value.getD .blank, attributes, m.comment⟩
  else .message ⟨m.key, value, attributes, m.comment⟩

def skeleton (m : Template) : Fluent.Entry :=
  m.entry (m.value.map fun _ => .blank) (m.attributes.map fun a => ⟨a.id, .blank⟩)

end Template
end FluentMigration
