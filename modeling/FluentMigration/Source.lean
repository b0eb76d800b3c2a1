/-!
References to strings in source files. A legacy source names a key of a `.properties`, `.dtd` or
`.po` file, a Fluent source a message, an attribute (`id.attr`) or a term (`-id`) of an `.ftl` file;
each kind of source refuses the files of the other.
-/

namespace FluentMigration

structure SourceRef where
  path : String
  key : String
  deriving DecidableEq, Inhabited

namespace SourceRef

def text (source : SourceRef) : String := source.path ++ ":" ++ source.key

def le (a b : SourceRef) : Bool :=
  a.path < b.path || a.path == b.path && a.key ≤ b.key

def sort (sources : List SourceRef) : List SourceRef :=
  sources.eraseDups.mergeSort le

end SourceRef

def isFluentPath (path : String) : Bool := ".ftl".toList.isSuffixOf path.toList

def isTermAttribute (key : String) : Bool :=
  key.toList.head? == some '-' && key.toList.contains '.'

structure LegacySource where
  path : String
  key : String
  /-- Blanks around lines are kept only if this is false. -/
  trim : Option Bool
  legacy : isFluentPath path = false
  deriving DecidableEq

def LegacySource.ref (source : LegacySource) : SourceRef := ⟨source.path, source.key⟩

def LegacySource.withTrim (source : LegacySource) (trim : Bool) : LegacySource :=
  { source with trim := some trim }

structure FluentSource where
  path : String
  key : String
  fluent : isFluentPath path = true
  notTermAttribute : isTermAttribute key = false
  deriving DecidableEq

def FluentSource.ref (source : FluentSource) : SourceRef := ⟨source.path, source.key⟩

def splitKey (key : String) : String × Option String :=
  let id := key.toList.takeWhile (· != '.')
  match key.toList.dropWhile (· != '.') with
  | [] => (key, none)
  | _ :: attr => (String.ofList id, some (String.ofList attr))

end FluentMigration
