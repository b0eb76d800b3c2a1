import FluentMigration.Files
import FluentMigration.Fluent.Parser
import FluentMigration.Fluent.Printer
import FluentMigration.Legacy.Reader
import FluentMigration.Merge
import FluentMigration.Plural.Rule
/-!
The state of one migration: the source files read so far, the references that give target files
their shape, the templates registered for each target, and the targets as they stand. Registering
reads the files that the templates name; `serializeChangeset` writes the targets as they look once
the strings of a changeset are known, and keeps them for the changesets after it.
-/

namespace FluentMigration

open Fluent (Entry Resource)

inductive SourceFile where
  | legacy (resource : Legacy.Resource)
  | fluent (resource : Resource)

abbrev Changes := List SourceRef

structure Context where
  locale : String
  categories : List Plural.Category
  /-- Whether untranslated strings of bilingual files count. -/
  enforceTranslated : Bool
  reference : Option Directory
  localization : Directory
  sources : Table SourceFile
  references : Table Resource
  targets : Table Resource
  templates : Table (List Template)
  /-- The sources of each key of each target. -/
  dependencies : Table (Table Changes)

structure Options where
  /-- The plural categories, if they are not those of the locale. -/
  categories : Option (List Plural.Category)
  enforceTranslated : Bool
  deriving DecidableEq, Inhabited

/-- The pattern of a message, an attribute `id.attr` or a term `-id`. -/
def Fluent.Resource.pattern? (r : Resource) (key : String) : Option Fluent.Pattern :=
  if key.toList.head? = some '-' then
    match r.get key with
    | some (.term t) => some t.value
    | _ => none
  else
    let (id, attr) := splitKey key
    match r.get id, attr with
    | some (.message m), none => m.value
    | some (.message m), some name => (m.attributes.find? (·.id == name)).map (·.value)
    | _, _ => none

namespace Context

def new (locale : String) (reference : Option Directory) (localization : Directory)
    (options : Options) : Context where
  locale
  categories := options.categories.getD (Plural.categoriesOfLocale locale)
  enforceTranslated := options.enforceTranslated
  reference
  localization
  sources := .empty
  references := .empty
  targets := .empty
  templates := .empty
  dependencies := .empty

def isVisible (c : Context) (e : Legacy.Entry) : Bool := e.translated || c.enforceTranslated

def legacyValue (c : Context) (source : SourceRef) : Option String :=
  match c.sources.get? source.path with
  | some (.legacy r) =>
    match r.get source.key with
    | some e => if c.isVisible e then some e.value else none
    | none => none
  | _ => none

def fluentPattern (c : Context) (source : SourceRef) : Option Fluent.Pattern :=
  match c.sources.get? source.path with
  | some (.fluent r) => r.pattern? source.key
  | _ => none

def lookup (c : Context) : Lookup := ⟨c.legacyValue, c.fluentPattern, c.categories⟩

def parseSource (path text : String) : Option SourceFile :=
  if extension? path = some "ftl" then some (.fluent (Resource.parse text))
  else (Legacy.Format.ofPath? path).map fun format => .legacy (.parse format text)

/-- Reads a source file unless it has been read; one that cannot be read is passed over. -/
def load (c : Context) (path : String) : Context :=
  if c.sources.contains path then c
  else
    match c.localization.read path with
    | .error _ => c
    | .ok text =>
      match parseSource path text with
      | none => c
      | some file => { c with sources := c.sources.insert path file }

def readTarget (c : Context) (target : String) : Except MigrationError Resource :=
  match c.localization.read target with
  | .ok text => .ok (.parse text)
  | .error .notFound => .ok .empty
  | .error reason => .error (.file (c.localization.showPath target) reason)

/-- Gives a target its shape: that of its reference file, or without reference files that of the
templates. -/
def addReference (c : Context) (target reference : String) (templates : List Template) :
    Except MigrationError Context :=
  match c.reference with
  | none =>
    let skeletons := templates.map Template.skeleton
    .ok { c with
      references := c.references.modify target .empty fun r => ⟨r.body ++ skeletons⟩ }
  | some directory =>
    if c.references.contains target then .ok c
    else
      match directory.read reference with
      | .ok text => .ok { c with references := c.references.insert target (.parse text) }
      | .error reason => .error (.unreadableReference reference reason)

def addDependencies (c : Context) (target : String) (templates : List Template) : Context :=
  { c with
    dependencies := templates.foldl (fun table t =>
      table.modify target .empty (·.insert t.key (SourceRef.sort t.dependencies))) c.dependencies }

/-- The paths of all sources noted so far, in order and each once. -/
def neededPaths (c : Context) : List String :=
  (Table.ofList (c.dependencies.entries.flatMap fun (_, keys) =>
    keys.entries.flatMap fun (_, changes) => changes.map fun source => (source.path, ()))).keys

def loadNeeded (c : Context) : Context := c.neededPaths.foldl load c

/-- Whether a source file that is needed had not been read. -/
def expectsFiles (c : Context) : Bool := c.neededPaths.any (!c.sources.contains ·)

/-- The first Fluent source whose file has been read and lacks its pattern. -/
def missingPattern? (c : Context) (templates : List Template) : Option SourceRef :=
  let sources := (templates.flatMap Template.fluentSources).map FluentSource.ref
  sources.find? fun source =>
    match c.sources.get? source.path with
    | some (.fluent r) => (r.pattern? source.key).isNone
    | _ => false

def addTemplates (c : Context) (target : String) (templates : List Template) : Context :=
  { c with templates := c.templates.modify target [] (· ++ templates) }

def addTarget (c : Context) (target : String) : Except MigrationError Context :=
  if c.targets.contains target then .ok c
  else do
    let current ← c.readTarget target
    .ok { c with targets := c.targets.insert target current }

/-- What is left of a context after a step, and why the step failed, if it did. -/
abbrev Outcome := Context × Except MigrationError Unit

/-- Registers templates for a target shaped by a reference. A failure leaves what was done before
it. -/
def addTransforms (c : Context) (target reference : String) (templates : List Template) :
    Outcome :=
  match c.addReference target reference templates with
  | .error e => (c, .error e)
  | .ok c =>
    let noted := c.addDependencies target templates
    let c := noted.loadNeeded
    if noted.expectsFiles && c.sources.isEmpty then (c, .error .emptyLocalization)
    else
      match c.missingPattern? templates with
      | some source => (c, .error (.missingPattern source))
      | none =>
        let c := c.addTemplates target templates
        match c.addTarget target with
        | .error e => (c, .error e)
        | .ok c => (c, .ok ())

/-- The sources of a key of a target, if a template has it. -/
def dependenciesOf (c : Context) (target key : String) : Option Changes :=
  (c.dependencies.get? target).bind (·.get? key)

/-- Whether a changeset migrates a key, given all that is known: a key with sources is migrated
when all of them are known and one of them is in the changeset. -/
def inChangeset (c : Context) (target key : String) (changeset known : Changes) : Bool :=
  match c.dependenciesOf target key with
  | none => true
  | some sources =>
    sources.isEmpty || (sources.all (known.contains ·) && sources.any (changeset.contains ·))

def patternKeys (e : Entry) : List String :=
  match e with
  | .message m => m.attributes.map (fun a => m.id ++ "." ++ a.id) ++ [m.id]
  | .term t => ["-" ++ t.id]
  | _ => []

def visibleKeys (c : Context) : SourceFile → List String
  | .legacy r => (r.entries.filter c.isVisible).map (·.key)
  | .fluent r => r.body.flatMap patternKeys

def defaultChangeset (c : Context) : Changes :=
  SourceRef.sort
    (c.sources.entries.flatMap fun (path, file) => (c.visibleKeys file).map (⟨path, ·⟩))

def mergeTarget (c : Context) (target : String) (reference : Resource)
    (changeset known : Changes) : Resource :=
  Merge.merge
    { lookup := c.lookup
      reference
      current := (c.targets.get? target).getD .empty
      templates := (c.templates.get? target).getD []
      inChangeset := fun key => c.inChangeset target key changeset known }

def mergeChangeset (c : Context) (changeset known : Changes) : List (String × Resource) :=
  c.references.entries.filterMap fun (target, reference) =>
    let merged := c.mergeTarget target reference changeset known
    if Merge.messagesEqual ((c.targets.get? target).getD .empty) merged then none
    else some (target, merged)

def keepTargets (c : Context) (merged : List (String × Resource)) : Context :=
  { c with targets := merged.foldl (fun t (target, r) => t.insert target r) c.targets }

/-- The texts of the targets that a changeset changes, and the context that has them as current. -/
def serializeChangeset (c : Context) (changeset known : Changes) :
    List (String × String) × Context :=
  let merged := c.mergeChangeset changeset known
  (merged.map fun (target, r) => (target, r.serialize), c.keepTargets merged)

end Context
end FluentMigration
