import FluentMigration.Toml.Reader
/-!
What TOML values stand for. A decoder takes a value with its line; a value of another type, an
unknown field, a missing one and an unknown variant are refused with the line they are on.
-/

namespace FluentMigration
namespace Toml

abbrev Decoder (α : Type) := Item → Except Problem α

def mismatch (expected : String) (item : Item) : Except Problem α :=
  .error ⟨item.line, .wrongType item.value.described expected⟩

def stringAs (expected : String) : Decoder String := fun item =>
  match item.value with
  | .string value => .ok value
  | _ => mismatch expected item

def string : Decoder String := stringAs "a string"

def path : Decoder String := stringAs "path string"

def boolean : Decoder Bool := fun item =>
  match item.value with
  | .boolean value => .ok value
  | _ => mismatch "a boolean" item

def list (f : Decoder α) : Decoder (List α) := fun item =>
  match item.value with
  | .array items => items.mapM f
  | .tables elements => elements.mapM fun e => f e.item
  | _ => mismatch "a sequence" item

/-- The fields of a table, whatever their keys. A time has none. -/
def entries (f : Decoder α) : Decoder (List (String × α)) := fun item =>
  match item.value with
  | .table _ fields => fields.mapM fun field => do return (field.key, ← f field.item)
  | .datetime => .ok []
  | _ => mismatch "a map" item

/-- A record type: its name, the fields that have to be there, and how each field in turn changes a
record. -/
structure Record (α : Type) where
  name : String
  required : List String
  fields : List (String × (Item → α → Except Problem α))

namespace Record

def fieldNames (r : Record α) : List String := r.fields.map (·.1)

def readFields (r : Record α) (start : α) (line : Nat) (fields : List Field) :
    Except Problem α := do
  let read := fun value (field : Field) =>
    match r.fields.lookup field.key with
    | some f => f field.item value
    | none => .error ⟨field.line, .unknownField field.key r.fieldNames⟩
  let value ← fields.foldlM read start
  match r.required.find? fun name => !fields.any (·.key == name) with
  | some name => .error ⟨line, .missingField name⟩
  | none => .ok value

/-- Reads the items of a sequence as the fields in the order of the record type; more items are
passed over. -/
def readItems (r : Record α) (start : α) (line : Nat) (items : List Item) : Except Problem α := do
  let read := fun value (pair : (String × (Item → α → Except Problem α)) × Item) =>
    pair.1.2 pair.2 value
  let value ← (r.fields.zip items).foldlM read start
  match (r.fieldNames.drop items.length).findIdx? r.required.contains with
  | some i => .error ⟨line, .wrongLength (items.length + i) r.name r.fields.length⟩
  | none => .ok value

/-- The field that a time shows as a table. -/
def timeField : String := "$__toml_private_datetime"

/-- A record, begun from one whose fields hold what is taken for a field that is not there. -/
def decode (r : Record α) (start : α) : Decoder α := fun item =>
  match item.value with
  | .table _ fields => r.readFields start item.line fields
  | .array items => r.readItems start item.line items
  | .tables elements => r.readItems start item.line (elements.map Element.item)
  | .datetime => .error ⟨item.line, .unknownField timeField r.fieldNames⟩
  | _ => mismatch ("struct " ++ r.name) item

end Record

def variantOf (variants : List (String × α)) (line : Nat) (name : String) : Except Problem α :=
  match variants.lookup name with
  | some value => .ok value
  | none => .error ⟨line, .unknownVariant name (variants.map (·.1))⟩

def noContent (item : Item) : Except Problem Unit :=
  let refuse := fun expected => .error ⟨item.line, .variantContent expected⟩
  match item.value with
  | .table _ fields => if fields.isEmpty then .ok () else refuse "empty table"
  | .array items => if items.isEmpty then .ok () else refuse "empty table"
  | .tables _ => refuse "empty array"
  | value => refuse ("table, found " ++ value.typeName)

/-- One of several variants: its name, or a table with an empty table under its name. -/
def variant (variants : List (String × α)) : Decoder α := fun item =>
  match item.value with
  | .string name => variantOf variants item.line name
  | .table _ [field] => do
    let value ← variantOf variants field.line field.key
    noContent field.item
    .ok value
  | .table _ fields => .error ⟨item.line, .variantCount fields.isEmpty⟩
  | _ => .error ⟨item.line, .noVariant⟩

def read (r : Record α) (start : α) (text : String) : Except Problem α := do
  r.decode start (← parse text)

end Toml
end FluentMigration
