import FluentMigration.Blame
import FluentMigration.Context
/-!
Running migrations. A migration registers its templates in a context of its own; the source files
that were read are blamed, and the changesets are replayed oldest first. Each one that changes
targets has them written and committed under its author. A dry run predicts the changesets and
leaves files and repository alone.
-/

namespace FluentMigration

structure Target where
  path : String
  reference : String
  /-- The templates, or why they cannot be made. -/
  templates : Except MigrationError (List Template)

structure Migration where
  name : String
  /-- The commit message; `{index}` and `{author}` in it are replaced. -/
  description : String
  targets : List Target

def Migration.prepare (context : Context) : List Target → Except MigrationError Context
  | [] => .ok context
  | target :: rest => do
    let templates ← target.templates
    match context.addTransforms target.path target.reference templates with
    | (_, .error e) => .error e
    | (context, .ok ()) => prepare context rest

def commitMessage (template : String) (index : Nat) (author : String) : String :=
  Text.replace "\x7bauthor\x7d" author
    (Text.replace "\x7bindex\x7d" (toString index) template)

structure Commit where
  message : String
  author : String
  /-- The files as they were when the request was made. -/
  files : Files
  accepted : Bool
  deriving DecidableEq, Inhabited

structure Repository where
  blame : String → Except RepositoryError (List BlameLine)
  /-- Whether the commit with a number, counted from 0, succeeds. -/
  accepts : Nat → Bool

structure Settings where
  locale : String
  reference : Option (Location × String)
  /-- The localization directory, and how it is shown. -/
  localization : Location × String
  options : Options
  dryRun : Bool

structure State where
  files : Files
  commits : List Commit

structure ChangesetSummary where
  index : Nat
  author : String
  message : String
  files : List String
  /-- False in a dry run and when the repository refused. -/
  committed : Bool
  deriving DecidableEq, Inhabited

structure MigrationSummary where
  migration : String
  changesets : List ChangesetSummary
  deriving DecidableEq, Inhabited

structure Migrator where
  settings : Settings
  /-- The repository, or why it cannot be opened. -/
  repository : Except RepositoryError Repository
  /-- The time, in seconds. -/
  now : Int

namespace Migrator

def newContext (m : Migrator) (files : Files) : Context :=
  let directory := fun (location, shown) => Directory.mk files location shown
  .new m.settings.locale (m.settings.reference.map directory)
    (directory m.settings.localization) m.settings.options

/-- The name of the file that a text goes to before it takes its place. -/
def temporaryName (name : String) : String := "." ++ name ++ ".tmp"

/-- Writes a text to a path of the localization directory, by way of a temporary file beside it;
directories are made as needed. A failure leaves what was done before it. -/
def writeFile (m : Migrator) (files : Files) (path content : String) :
    Files × Except MigrationError Unit :=
  let (base, shown) := m.settings.localization
  let outer := (properNames path).dropLast
  let name := (fileName? path).getD "target"
  let temporary := outer ++ [temporaryName name]
  let showNames := fun names => joinPath shown ("/".intercalate names)
  match files.makeDirectories base outer.reverse with
  | .error reason =>
    (files, .error (.file (if outer.isEmpty then shown else showNames outer) reason))
  | .ok files =>
    match files.write base temporary content with
    | .error reason => (files, .error (.file (showNames temporary) reason))
    | .ok files =>
      match files.rename base temporary (pathNames path) with
      | .error reason => (files, .error (.file (joinPath shown path) reason))
      | .ok files => (files, .ok ())

def writeTargets (m : Migrator) (files : Files) :
    List (String × String) → Files × Except MigrationError Unit
  | [] => (files, .ok ())
  | (path, content) :: rest =>
    match m.writeFile files path content with
    | (files, .ok ()) => m.writeTargets files rest
    | failed => failed

def commit (repository : Repository) (state : State) (message author : String) : State × Bool :=
  let accepted := repository.accepts state.commits.length
  ({ state with commits := state.commits ++ [⟨message, author, state.files, accepted⟩] }, accepted)

/-- What became of a replay: the state it left, and its summaries or why it stopped. -/
abbrev Outcome (α : Type) := State × Except MigrationError α

/-- Replays changesets: `known` holds the strings of those before, `index` is the number of the next
commit. A changeset that changes nothing is passed over. -/
def replay (m : Migrator) (repository : Repository) (description : String) (context : Context)
    (known : Changes) (index : Nat) (state : State) :
    List Changeset → Outcome (List ChangesetSummary)
  | [] => (state, .ok [])
  | changeset :: rest =>
    let known := known ++ changeset.changes
    let (targets, context) := context.serializeChangeset changeset.changes known
    if targets.isEmpty then m.replay repository description context known index state rest
    else
      let message := commitMessage description index changeset.author
      let summary := ChangesetSummary.mk index changeset.author message (targets.map (·.1))
      if m.settings.dryRun then
        let (state, others) := m.replay repository description context known (index + 1) state rest
        (state, others.map (summary false :: ·))
      else
        match m.writeTargets state.files targets with
        | (files, .error e) => ({ state with files }, .error e)
        | (files, .ok ()) =>
          let (state, accepted) := commit repository { state with files } message changeset.author
          let (state, others) :=
            m.replay repository description context known (index + 1) state rest
          (state, others.map (summary accepted :: ·))

def run (m : Migrator) (state : State) (migration : Migration) : Outcome MigrationSummary :=
  match Migration.prepare (m.newContext state.files) migration.targets with
  | .error e => (state, .error e)
  | .ok context =>
    match m.repository with
    | .error e => (state, .error (.repository e))
    | .ok repository =>
      let attribution :=
        Attribution.ofFiles context.localization.read repository.blame context.sources.keys
      let (state, changesets) :=
        m.replay repository migration.description context [] 1 state
          (attribution.changesetsAt m.now)
      (state, changesets.map (⟨migration.name, ·⟩))

def runEach (m : Migrator) (state : State) :
    List Migration → State × List (Except MigrationError MigrationSummary)
  | [] => (state, [])
  | migration :: rest =>
    let (state, result) := m.run state migration
    let (state, results) := m.runEach state rest
    (state, result :: results)

/-- Runs migrations one after another; those that fail are passed over. -/
def runAll (m : Migrator) (state : State) (migrations : List Migration) :
    State × List MigrationSummary :=
  let (state, results) := m.runEach state migrations
  (state, results.filterMap fun
    | .ok summary => some summary
    | .error _ => none)

end Migrator
end FluentMigration
