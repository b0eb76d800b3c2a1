import FluentMigration.Error
import FluentMigration.Fluent.Parser
import FluentMigration.Transform.Template
/-!
Templates written as the Fluent they produce. The calls `COPY` and `COPY_PATTERN` become transforms;
their path and key are string literals, or message references that stand for an entry of a table of
symbols. Everything else is literal Fluent, and a placeable in a placeable is just that placeable.
-/

namespace FluentMigration

namespace FromFluent

abbrev Symbols := List (String × String)

/-- Resolves the escapes of a quote and a backslash in a string literal. -/
def unescape : List Char → List Char
  | '\\' :: c :: r => c :: unescape r
  | c :: r => c :: unescape r
  | [] => []

def argument (symbols : Symbols) (call : String) : Fluent.Inline → Except MigrationError String
  | .string raw => .ok (String.ofList (unescape raw.toList))
  | .message id none =>
    match symbols.lookup id with
    | some value => .ok value
    | none => .error (.invalidTransform (.substitution call id))
  | value => .error (.invalidTransform (.argument call value))

def pathAndKey (symbols : Symbols) (call : String) (arguments : Fluent.Arguments) :
    Except MigrationError (String × String) :=
  match arguments.positional with
  | [path, key] => do
    let path ← argument symbols call path
    let key ← argument symbols call key
    .ok (path, key)
  | others => .error (.invalidTransform (.argumentCount call others.length))

/-- Whether a text is `false`, in capitals or not. -/
def isFalse (text : String) : Bool :=
  text.toList.map Char.toLower == "false".toList

/-- The named arguments of `COPY`: only `trim` is known. -/
def trimArguments (symbols : Symbols) (source : LegacySource) :
    List Fluent.NamedArgument → Except MigrationError LegacySource
  | [] => .ok source
  | ⟨name, value⟩ :: rest => do
    let value ← argument symbols "COPY" value
    if name = "trim" then trimArguments symbols (source.withTrim !(isFalse value)) rest
    else .error (.invalidTransform (.unknownArgument name))

/-- The calls that need arguments Fluent cannot write. -/
def programmedCalls : List String := ["PLURALS", "REPLACE", "REPLACE_IN_TEXT"]

def ofCall (symbols : Symbols) (name : String) (arguments : Fluent.Arguments) :
    Except MigrationError Transform :=
  if name = "COPY" then do
    let (path, key) ← pathAndKey symbols name arguments
    let source ← LegacySource.make? path key
    let source ← trimArguments symbols source arguments.named
    .ok (.copy source)
  else if name = "COPY_PATTERN" then do
    let (path, key) ← pathAndKey symbols name arguments
    let source ← FluentSource.make? path key
    .ok (.copyPattern source)
  else if name = "CONCAT" then .error (.notSupported (.implicitCall name))
  else if name ∈ programmedCalls then .error (.notSupported (.programmedCall name))
  else .ok (.expression (.function name arguments))

/-- One placeable stands for itself, everything else is put together. -/
def gather : List Transform → Transform
  | [.text value] => .concatenate [.text value]
  | [part] => part
  | parts => .concatenate parts

mutual

def ofInline (symbols : Symbols) : Fluent.Inline → Except MigrationError Transform
  | .function name arguments => ofCall symbols name arguments
  | .placeable content => ofExpression symbols content
  | .string raw => .ok (.expression (.string raw))
  | .number raw => .ok (.expression (.number raw))
  | .variable id => .ok (.expression (.variable id))
  | .message id attr => .ok (.expression (.message id attr))
  | .term id attr arguments => .ok (.expression (.term id attr arguments))
termination_by structural x => x

def ofExpression (symbols : Symbols) : Fluent.Expression → Except MigrationError Transform
  | .inline content => ofInline symbols content
  | .select selector variants => do
    let variants ← ofVariants symbols variants
    .ok (.select selector variants)
termination_by structural x => x

def ofVariants (symbols : Symbols) :
    List Fluent.Variant → Except MigrationError (List TransformVariant)
  | [] => .ok []
  | variant :: rest => do
    let first ← ofVariant symbols variant
    let others ← ofVariants symbols rest
    .ok (first :: others)
termination_by structural x => x

def ofVariant (symbols : Symbols) : Fluent.Variant → Except MigrationError TransformVariant
  | ⟨key, value, isDefault⟩ => do
    let value ← ofPattern symbols value
    .ok ⟨key, value, isDefault⟩
termination_by structural x => x

def ofPattern (symbols : Symbols) : Fluent.Pattern → Except MigrationError Transform
  | ⟨elements⟩ => do
    let parts ← ofElements symbols elements
    .ok (gather parts)
termination_by structural x => x

def ofElements (symbols : Symbols) :
    List Fluent.Element → Except MigrationError (List Transform)
  | [] => .ok []
  | .text value :: rest => do
    let others ← ofElements symbols rest
    .ok (.text value :: others)
  | .placeable content :: rest => do
    let first ← ofExpression symbols content
    let others ← ofElements symbols rest
    .ok (first :: others)
termination_by structural x => x

end

def ofAttribute (symbols : Symbols) (a : Fluent.Attribute) :
    Except MigrationError AttributeTemplate := do
  let value ← ofPattern symbols a.value
  .ok ⟨a.id, value⟩

def ofParts (symbols : Symbols) (key : String) (value : Option Fluent.Pattern)
    (attributes : List Fluent.Attribute) (comment : Option String) :
    Except MigrationError Template := do
  let value ← match value with
    | none => .ok none
    | some pattern => (ofPattern symbols pattern).map some
  let attributes ← attributes.mapM (ofAttribute symbols)
  .ok ⟨key, value, attributes, comment⟩

/-- The template of a message or term; none for other entries. -/
def ofEntry (symbols : Symbols) : Fluent.Entry → Except MigrationError (Option Template)
  | .message m => (ofParts symbols m.id m.value m.attributes m.comment).map some
  | .term t => (ofParts symbols ("-" ++ t.id) (some t.value) t.attributes t.comment).map some
  | _ => .ok none

end FromFluent

def Template.ofFluent (symbols : FromFluent.Symbols) (source : String) :
    Except MigrationError (List Template) :=
  match Fluent.Resource.parse? source with
  | .error d => .error (.invalidTransform (.unreadable d))
  | .ok resource => do
    let templates ← resource.body.mapM (FromFluent.ofEntry symbols)
    .ok (templates.filterMap id)

end FluentMigration
