/-!
What can be wrong with a TOML document and with what it says.
-/

namespace FluentMigration
namespace Toml

inductive Conflict where
  /-- A key given twice: in the table with a path, or in one without a path of its own. -/
  | duplicateKey (key : String) (table : Option (List String))
  | notExtensible (path : List String) (found : String)
  | outOfRange
  | tooLarge
  | tooSmall
  | tooDeep
  deriving DecidableEq, Inhabited

def Conflict.message : Conflict → String
  | duplicateKey key none => "duplicate key `" ++ key ++ "`"
  | duplicateKey key (some []) => "duplicate key `" ++ key ++ "` in document root"
  | duplicateKey key (some path) =>
    "duplicate key `" ++ key ++ "` in table `" ++ ".".intercalate path ++ "`"
  | notExtensible path found =>
    "dotted key `" ++ ".".intercalate path ++ "` attempted to extend non-table type (" ++ found ++
      ")"
  | outOfRange => "value is out of range"
  | tooLarge => "number too large to fit in target type"
  | tooSmall => "number too small to fit in target type"
  | tooDeep => "recursion limit exceeded"

/-- Why a text is no TOML document: what was being read, what could have followed there, and what
stands against what did follow. -/
structure Malformation where
  part : Option String
  expected : List String
  conflict : Option Conflict
  deriving DecidableEq, Inhabited

namespace Malformation

def ofPart (part : String) : Malformation := ⟨some part, [], none⟩

def ofExpected (expected : List String) : Malformation := ⟨none, expected, none⟩

def ofConflict (conflict : Conflict) : Malformation := ⟨none, [], some conflict⟩

def message (m : Malformation) : String :=
  let part := m.part.toList.map ("invalid " ++ ·)
  let expected :=
    if m.expected.isEmpty then [] else ["expected " ++ ", ".intercalate m.expected]
  "\n".intercalate (part ++ expected ++ m.conflict.toList.map Conflict.message)

end Malformation

inductive Cause where
  /-- Not TOML at all, or a key given twice. -/
  | malformed (reason : Malformation)
  | unknownField (name : String) (known : List String)
  | missingField (name : String)
  | wrongType (found expected : String)
  /-- A record given as a sequence that ends too early. -/
  | wrongLength (length : Nat) (record : String) (size : Nat)
  | unknownVariant (name : String) (known : List String)
  /-- Neither the name of a variant nor a table. -/
  | noVariant
  /-- A table for a variant that has not one entry. -/
  | variantCount (empty : Bool)
  /-- A variant with a content. -/
  | variantContent (expected : String)
  deriving DecidableEq, Inhabited

def choice (names : List String) : String :=
  let quoted := names.map fun name => "`" ++ name ++ "`"
  match quoted with
  | [a] => a
  | [a, b] => a ++ " or " ++ b
  | _ => "one of " ++ ", ".intercalate quoted

namespace Cause

def message : Cause → String
  | malformed reason => reason.message
  | unknownField name known => "unknown field `" ++ name ++ "`, expected " ++ choice known
  | missingField name => "missing field `" ++ name ++ "`"
  | wrongType found expected => "invalid type: " ++ found ++ ", expected " ++ expected
  | wrongLength length record size =>
    "invalid length " ++ toString length ++ ", expected struct " ++ record ++ " with " ++
      toString size ++ (if size = 1 then " element" else " elements")
  | unknownVariant name known => "unknown variant `" ++ name ++ "`, expected " ++ choice known
  | noVariant => "wanted string or table"
  | variantCount true => "wanted exactly 1 element, found 0 elements"
  | variantCount false => "wanted exactly 1 element, more than 1 element"
  | variantContent expected => "expected " ++ expected

end Cause

structure Problem where
  line : Nat
  cause : Cause
  deriving DecidableEq, Inhabited

namespace Problem

def place (p : Problem) : String := "line " ++ toString p.line

def message (p : Problem) : String := p.place ++ ": " ++ p.cause.message

def isMalformed (p : Problem) : Bool :=
  match p.cause with
  | .malformed _ => true
  | _ => false

end Problem
end Toml
end FluentMigration
