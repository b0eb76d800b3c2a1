import FluentMigration.Double.Shortest
import FluentMigration.Text.Quoted
import FluentMigration.Toml.Problem
/-!
TOML values with the lines they begin on, and how the keys and headers of a document build up its
tables. A table can grow as long as nothing but dotted keys or longer headers have named it.
-/

namespace FluentMigration
namespace Toml

inductive TableKind where
  /-- It has a header of its own. -/
  | header
  /-- It lies on the way to a longer header. -/
  | implied
  /-- It lies on the way to a dotted key. -/
  | dotted
  /-- It is written in braces. -/
  | inline
  deriving DecidableEq, Inhabited

mutual

inductive Value where
  | string (value : String)
  | integer (value : Int)
  | float (value : Double)
  | boolean (value : Bool)
  | datetime
  | array (items : List Item)
  | table (kind : TableKind) (fields : List Field)
  /-- Tables with the same header in double brackets. -/
  | tables (elements : List Element)

structure Item where
  line : Nat
  value : Value

structure Field where
  key : String
  line : Nat
  value : Value

structure Element where
  line : Nat
  fields : List Field

end

instance : Inhabited Value := ⟨.datetime⟩

namespace Value

/-- What a value is, as it is told where a table is needed. -/
def typeName : Value → String
  | string _ => "string"
  | integer _ => "integer"
  | float _ => "float"
  | boolean _ => "boolean"
  | datetime => "datetime"
  | array _ => "array"
  | table .inline _ => "inline table"
  | table _ _ => "table"
  | tables _ => "array of tables"

def described : Value → String
  | string value => "string " ++ Text.quote value
  | integer value => "integer `" ++ toString value ++ "`"
  | float value => "floating point `" ++ value.text ++ "`"
  | boolean value => "boolean `" ++ (if value then "true" else "false") ++ "`"
  | datetime | table _ _ => "map"
  | array _ | tables _ => "sequence"

end Value

def Element.item (e : Element) : Item := ⟨e.line, .table .header e.fields⟩

def Field.item (f : Field) : Item := ⟨f.line, f.value⟩

namespace Fields

def get? (fields : List Field) (key : String) : Option Field := fields.find? (·.key == key)

/-- Puts a value in the place of the one under a key. -/
def set (fields : List Field) (key : String) (value : Value) : List Field :=
  fields.map fun f => if f.key = key then { f with value } else f

/-- Adds a field; its key must be new. `table` tells where that is. -/
def add (fields : List Field) (new : Field) (table : Option (List String)) :
    Except Conflict (List Field) :=
  if (get? fields new.key).isSome then .error (.duplicateKey new.key table)
  else .ok (fields ++ [new])

/-- Adds a field to a table on a dotted path, which `done` leads to. The table must have come to be
by dotted keys, and so must those on the way, or by longer headers. -/
def addBelow (new : Field) (table : Option (List String)) (done : List String) :
    List String → TableKind → List Field → Except Conflict (List Field)
  | [], kind, fields =>
    if kind = .dotted then add fields new table else .error (.duplicateKey new.key none)
  | name :: rest, _, fields =>
    let done := done ++ [name]
    match get? fields name with
    | none => do
      let inner ← addBelow new table done rest .dotted []
      .ok (fields ++ [⟨name, new.line, .table .dotted inner⟩])
    | some field =>
      match field.value with
      | .table .header _ => .error (.duplicateKey name none)
      | .table .inline _ => .error (.notExtensible done field.value.typeName)
      | .table kind inner => do
        .ok (set fields name (.table kind (← addBelow new table done rest kind inner)))
      | .tables elements =>
        match elements.getLast? with
        | none => .error (.duplicateKey name none)
        | some last => do
          let inner ← addBelow new table done rest .header last.fields
          .ok (set fields name (.tables (elements.dropLast ++ [{ last with fields := inner }])))
      | value => .error (.notExtensible done value.typeName)

def insert (fields : List Field) (path : List String) (new : Field)
    (table : Option (List String)) : Except Conflict (List Field) :=
  if path.isEmpty then add fields new table else addBelow new table [] path .header fields

/-- Changes the table on the path of a header, as far as there is none, an empty one. -/
def modifyBelow (line : Nat) (f : List Field → Except Conflict (List Field)) (done : List String) :
    List String → List Field → Except Conflict (List Field)
  | [], fields => f fields
  | name :: rest, fields =>
    let done := done ++ [name]
    match get? fields name with
    | none => do
      let inner ← modifyBelow line f done rest []
      .ok (fields ++ [⟨name, line, .table .implied inner⟩])
    | some field =>
      match field.value with
      | .table .inline _ => .error (.notExtensible done field.value.typeName)
      | .table kind inner => do
        .ok (set fields name (.table kind (← modifyBelow line f done rest inner)))
      | .tables elements =>
        match elements.getLast? with
        | none => .error (.duplicateKey name none)
        | some last => do
          let inner ← modifyBelow line f done rest last.fields
          .ok (set fields name (.tables (elements.dropLast ++ [{ last with fields := inner }])))
      | value => .error (.notExtensible done value.typeName)

end Fields

structure Header where
  /-- The keys before the last one. -/
  outer : List String
  key : String
  line : Nat
  /-- Whether it is in double brackets. -/
  repeated : Bool

/-- A document as far as it has been read: the tables before, and the one being read. -/
structure Draft where
  root : List Field
  header : Option Header
  fields : List Field

namespace Draft

def empty : Draft := ⟨[], none, []⟩

def path (d : Draft) : List String :=
  match d.header with
  | none => []
  | some h => h.outer ++ [h.key]

def add (d : Draft) (path : List String) (new : Field) : Except Conflict Draft := do
  return { d with fields := ← Fields.insert d.fields path new (some d.path) }

/-- Puts a table that is complete behind the other keys of the table it belongs to, or behind the
tables with the same header in double brackets. -/
def place (h : Header) (complete fields : List Field) : Except Conflict (List Field) :=
  if h.repeated then
    match Fields.get? fields h.key with
    | none => .ok (fields ++ [⟨h.key, h.line, .tables [⟨h.line, complete⟩]⟩])
    | some ⟨_, _, .tables elements⟩ =>
      .ok (Fields.set fields h.key (.tables (elements ++ [⟨h.line, complete⟩])))
    | some _ => .error (.duplicateKey h.key (some h.outer))
  else .ok (fields.filter (·.key != h.key) ++ [⟨h.key, h.line, .table .header complete⟩])

def finish (d : Draft) : Except Conflict (List Field) :=
  match d.header with
  | none => .ok d.fields
  | some h => Fields.modifyBelow h.line (place h d.fields) [] h.outer d.root

/-- What a header finds under its key: the fields that longer headers have put there before. -/
def found (h : Header) (fields : List Field) : Except Conflict (List Field) :=
  match (Fields.get? fields h.key).map Field.value with
  | none => .ok []
  | some (.tables _) => if h.repeated then .ok [] else .error (.duplicateKey h.key (some h.outer))
  | some (.table .implied inner) =>
    if h.repeated then .error (.duplicateKey h.key (some h.outer)) else .ok inner
  | some _ => .error (.duplicateKey h.key (some h.outer))

/-- Follows the path of a header to the table that its last key belongs to. -/
def outerFields (fields : List Field) (done : List String) :
    List String → Except Conflict (List Field)
  | [] => .ok fields
  | name :: rest =>
    let done := done ++ [name]
    match (Fields.get? fields name).map Field.value with
    | none => .ok []
    | some (.table .inline _) => .error (.notExtensible done "inline table")
    | some (.table _ inner) => outerFields inner done rest
    | some (.tables elements) => outerFields ((elements.getLast?.map (·.fields)).getD []) done rest
    | some value => .error (.notExtensible done value.typeName)

def start (d : Draft) (h : Header) : Except Conflict Draft := do
  let root ← d.finish
  let fields ← found h (← outerFields root [] h.outer)
  return ⟨root, some h, fields⟩

end Draft
end Toml
end FluentMigration
