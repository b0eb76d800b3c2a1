import FluentMigration.Fluent.Outline
import FluentMigration.Fluent.Resource
import FluentMigration.Glob.Pattern
import FluentMigration.Source
import FluentMigration.Toml.Problem
/-!
What can go wrong in a migration, by cause. Each kind of cause has its wording in one function
`message`. A string that is merely missing from a source file is no error but `Absent`.
-/

namespace FluentMigration

/-- A source string that does not exist. -/
structure Absent where
  source : SourceRef
  deriving DecidableEq, Inhabited

def Absent.message (a : Absent) : String :=
  "missing `" ++ a.source.key ++ "` in `" ++ a.source.path ++ "`"

/-- Why a file could not be read or written. -/
inductive FileError where
  | notFound
  | occupied
  | notDirectory
  | isDirectory
  | notText
  deriving DecidableEq, Inhabited

def FileError.message : FileError → String
  | notFound => "No such file or directory (os error 2)"
  | occupied => "File exists (os error 17)"
  | notDirectory => "Not a directory (os error 20)"
  | isDirectory => "Is a directory (os error 21)"
  | notText => "stream did not contain valid UTF-8"

/-- What cannot be migrated this way. -/
inductive Unsupported where
  | fluentFile (source : SourceRef)
  | legacyFile (source : SourceRef)
  | termAttribute (source : SourceRef)
  /-- A call that every pattern already gets. -/
  | implicitCall (name : String)
  /-- A call whose arguments cannot be written in Fluent. -/
  | programmedCall (name : String)
  deriving DecidableEq, Inhabited

def Unsupported.message : Unsupported → String
  | fluentFile source =>
    "Please use COPY_PATTERN to migrate from Fluent files (" ++ source.text ++ ")"
  | legacyFile source => "Please use COPY to migrate from legacy files (" ++ source.text ++ ")"
  | termAttribute source => "Cannot migrate from Term Attributes (" ++ source.text ++ ")"
  | implicitCall name =>
    name ++ " may not be used with transforms_from(). It runs implicitly on all Patterns anyways."
  | programmedCall name =>
    name ++ " may not be used with transforms_from(). It requires additional logic in code."

inductive Misdefined where
  | unreadable (diagnostic : Fluent.Diagnostic)
  | argumentCount (call : String) (count : Nat)
  | unknownArgument (name : String)
  | substitution (call id : String)
  | argument (call : String) (value : Fluent.Inline)
  | replacement (placeholder : String)
  | valueTwice (id : String)
  | attributeTwice (id attr : String)
  deriving DecidableEq

def Misdefined.message : Misdefined → String
  | unreadable d =>
    "Transform contains parse error: " ++ d.cause.message ++ ", at " ++ toString d.offset
  | argumentCount call count =>
    call ++ " takes a path and a key, got " ++ toString count ++ " arguments"
  | unknownArgument name => "Unknown argument passed to COPY: " ++ name
  | substitution call id => "Unknown substitution in " ++ call ++ ": " ++ id
  | argument call value => "Invalid argument passed to " ++ call ++ ": " ++ value.outline
  | replacement placeholder =>
    "replacement for `" ++ placeholder ++
      "` needs exactly one of variable, message, term or text"
  | valueTwice id => "value of `" ++ id ++ "` is defined twice"
  | attributeTwice id attr => "attribute `" ++ id ++ "." ++ attr ++ "` is defined twice"

/-- Why a recipe or configuration file is refused. -/
inductive Rejected where
  | unreadable (reason : FileError)
  | document (problem : Toml.Problem)
  | noCategories
  | malformedPattern (reason : Glob.Malformed)
  | noMatch
  deriving DecidableEq, Inhabited

def Rejected.message : Rejected → String
  | unreadable reason => "could not read file: " ++ reason.message
  | document problem => problem.message
  | noCategories => "plural-categories must not be empty"
  | malformedPattern reason => reason.message
  | noMatch => "pattern matches no recipe files"

inductive RepositoryError where
  | unsupported (path detail : String)
  | commandFailed (command output : String)
  | unparsed (what detail : String)
  | file (reason : FileError)
  | backend (detail : String)
  deriving DecidableEq, Inhabited

def RepositoryError.message : RepositoryError → String
  | unsupported path detail => "unsupported repository at " ++ path ++ ": " ++ detail
  | commandFailed command output => "`" ++ command ++ "` failed: " ++ output
  | unparsed what detail => "could not parse " ++ what ++ ": " ++ detail
  | file reason => "I/O error: " ++ reason.message
  | backend detail => "git backend error: " ++ detail

/-- What stops a migration. -/
inductive MigrationError where
  | notSupported (reason : Unsupported)
  | invalidTransform (reason : Misdefined)
  | missingPattern (source : SourceRef)
  | unreadableReference (path : String) (reason : FileError)
  | emptyLocalization
  | recipe (path : String) (reason : Rejected)
  | config (path : String) (reason : Rejected)
  | file (path : String) (reason : FileError)
  | repository (reason : RepositoryError)
  deriving DecidableEq

def MigrationError.message : MigrationError → String
  | notSupported reason => "not supported: " ++ reason.message
  | invalidTransform reason => "invalid transform: " ++ reason.message
  | missingPattern source => "pattern `" ++ source.key ++ "` not found in `" ++ source.path ++ "`"
  | unreadableReference path reason =>
    "could not read reference file `" ++ path ++ "`: " ++ reason.message
  | emptyLocalization => "No localization files were found"
  | recipe path reason => "invalid recipe " ++ path ++ ": " ++ reason.message
  | config path reason => "invalid config " ++ path ++ ": " ++ reason.message
  | file path reason => "I/O error on " ++ path ++ ": " ++ reason.message
  | repository reason => reason.message

/-- Names a legacy source; Fluent files are refused. -/
def LegacySource.make? (path key : String) : Except MigrationError LegacySource :=
  if h : isFluentPath path = false then .ok ⟨path, key, none, h⟩
  else .error (.notSupported (.fluentFile ⟨path, key⟩))

/-- Names a Fluent source; other files and attributes of terms are refused. -/
def FluentSource.make? (path key : String) : Except MigrationError FluentSource :=
  if h : isFluentPath path = true then
    if t : isTermAttribute key = false then .ok ⟨path, key, h, t⟩
    else .error (.notSupported (.termAttribute ⟨path, key⟩))
  else .error (.notSupported (.legacyFile ⟨path, key⟩))

end FluentMigration
