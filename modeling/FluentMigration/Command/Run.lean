import FluentMigration.Command.Arguments
import FluentMigration.Config
import FluentMigration.Json.Printer
import FluentMigration.Recipe.Document
import FluentMigration.Recipe.Paths
import FluentMigration.Repository.Basic
/-!
The command as a function: from arguments, environment variables and the files in the working
directory to the files after it, what is printed, and an exit code. Options win over the
configuration file. Recipes that cannot be read, and migrations that fail, are passed over and
counted.
-/

namespace FluentMigration
namespace Command

/-- What the command is run in. The working directory is the root of the files. -/
structure Environment where
  files : Files
  envVars : List (String × String)
  blame : Backend → String → Except RepositoryError (List BlameLine)
  /-- Whether the commit with a number, counted from 0, succeeds. -/
  accepts : Nat → Bool
  /-- The time, in seconds. -/
  now : Int

inductive Failure where
  | migration (reason : MigrationError)
  | noLocale (config : String)
  | noLocalization (config : String)
  | noDirectory (path : String) (reason : FileError)
  | failed (count total : Nat)
  deriving DecidableEq

def Failure.message : Failure → String
  | migration reason => reason.message
  | noLocale config => "no locale given; pass --locale or set `locale` in " ++ config
  | noLocalization config =>
    "no localization directory given; pass --localization-dir or set `localization-dir` in " ++
      config
  | noDirectory path _ => "localization directory " ++ path
  | failed count total => toString count ++ " of " ++ toString total ++ " migrations failed"

def Failure.cause : Failure → Option String
  | noDirectory _ reason => some reason.message
  | _ => none

def Failure.report (f : Failure) : String :=
  "Error: " ++ f.message ++
    (f.cause.map fun cause => "\n\nCaused by:\n    " ++ cause).getD "" ++ "\n"

structure Outcome where
  code : Nat
  stdout : String
  stderr : String
  state : State

def localeVariable : String := "L10N_MIGRATE_LOCALE"

def resolve (files : Files) (path : String) : Except FileError Location := do
  if path.isEmpty then .error .notFound
  else
    let location ← files.locate [] path
    if files.existsAt location then .ok location else .error .notFound

def directoryAt (files : Files) (path : String) : Location :=
  match files.locate [] path with
  | .ok location => location
  | .error _ => pathNames path

def settings (env : Environment) (r : Request) (config : Config) : Except Failure Settings := do
  let configPath := r.config.getD Config.defaultPath
  let locale ← match r.locale <|> env.envVars.lookup localeVariable <|> config.locale with
    | some locale => .ok locale
    | none => .error (.noLocale configPath)
  let path ← match r.localizationDirectory <|> config.localizationDirectory with
    | some path => .ok path
    | none => .error (.noLocalization configPath)
  let location ← match resolve env.files path with
    | .ok location => .ok location
    | .error reason => .error (.noDirectory path reason)
  let reference := r.referenceDirectory <|> config.referenceDirectory
  return {
    locale
    reference := reference.map fun path => (directoryAt env.files path, path)
    localization := (location, "/" ++ "/".intercalate location)
    options := config.options
    dryRun := r.dryRun }

/-- The migrator for settings; its repository is the one of the localization directory. -/
def migrator (env : Environment) (s : Settings) (backend : Backend) : Migrator where
  settings := s
  repository := do
    let (location, shown) := s.localization
    let backend ← backend.openIn env.files location shown
    return ⟨env.blame backend, env.accepts⟩
  now := env.now

def changesetJson (s : ChangesetSummary) : Json :=
  .object [("index", .number (.ofNat s.index)), ("author", .string s.author),
    ("message", .string s.message), ("files", .array (s.files.map .string)),
    ("committed", .boolean s.committed)]

def summaryJson (s : MigrationSummary) : Json :=
  .object [("migration", .string s.migration),
    ("changesets", .array (s.changesets.map changesetJson))]

def summaryLines (s : MigrationSummary) : List String :=
  let changeset := fun (c : ChangesetSummary) =>
    ("  [" ++ toString c.index ++ "] " ++ c.message) :: ("      author: " ++ c.author) ::
      c.files.map ("      " ++ ·)
  (s.migration ++ ":") ::
    (if s.changesets.isEmpty then ["  nothing to migrate"] else s.changesets.flatMap changeset)

def report (r : Request) (summaries : List MigrationSummary) : String :=
  if r.json then (Json.array (summaries.map summaryJson)).text ++ "\n"
  else if r.dryRun then
    String.join ((summaries.flatMap summaryLines).map (· ++ "\n"))
  else ""

/-- Migrates: the state afterwards, what is printed, and how many of the migrations failed. -/
def migrate (env : Environment) (r : Request) :
    Except Failure (State × String × Nat × Nat) := do
  let lift := fun {α} (x : Except MigrationError α) => x.mapError Failure.migration
  let config ← lift (Config.load env.files (r.config.getD Config.defaultPath))
  let s ← settings env r config
  let paths ← lift (Recipe.expandPaths env.files r.recipes)
  let recipes := paths.filterMap fun path => (Recipe.load env.files path).toOption
  let (state, summaries) := (migrator env s config.backend).runAll ⟨env.files, []⟩
    (recipes.map Recipe.migration)
  return (state, report r summaries, paths.length - summaries.length, paths.length)

def usage : String :=
  "Usage: l10n-migrate [OPTIONS] <RECIPE>...\n       l10n-migrate completions <SHELL>\n"

def version : String := "l10n-migrate 0.3.0\n"

def run (env : Environment) (arguments : List String) : Outcome :=
  let start := State.mk env.files []
  match parse arguments with
  | .error misuse => ⟨2, "", "error: " ++ misuse.message ++ "\n\n" ++ usage, start⟩
  | .ok .help => ⟨0, usage, "", start⟩
  | .ok .version => ⟨0, version, "", start⟩
  | .ok (.completions _) => ⟨0, "", "", start⟩
  | .ok (.migrate request) =>
    match migrate env request with
    | .error failure => ⟨1, "", failure.report, start⟩
    | .ok (state, stdout, 0, _) => ⟨0, stdout, "", state⟩
    | .ok (state, stdout, count, total) => ⟨1, stdout, (Failure.failed count total).report, state⟩

end Command
end FluentMigration
