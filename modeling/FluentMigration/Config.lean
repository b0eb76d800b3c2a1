import FluentMigration.Context
import FluentMigration.Repository.Tool
import FluentMigration.Toml.Decoder
/-!
The configuration file. All settings are optional; a setting that is not known is refused, and so
is a list of plural categories without any.
-/

namespace FluentMigration

structure Config where
  locale : Option String
  referenceDirectory : Option String
  localizationDirectory : Option String
  enforceTranslated : Bool
  categories : Option (List Plural.Category)
  backend : Backend
  deriving DecidableEq, Inhabited

namespace Config

def empty : Config := ⟨none, none, none, false, none, .auto⟩

def defaultPath : String := "l10n-migrate.toml"

def category : Toml.Decoder Plural.Category :=
  Toml.variant (Plural.Category.all.map fun c => (c.name, c))

def migrateTable : Toml.Record Config where
  name := "MigrateConfig"
  required := []
  fields := [
    ("locale", fun item c => do return { c with locale := some (← Toml.string item) }),
    ("reference-dir", fun item c => do
      return { c with referenceDirectory := some (← Toml.path item) }),
    ("localization-dir", fun item c => do
      return { c with localizationDirectory := some (← Toml.path item) }),
    ("enforce-translated", fun item c => do
      return { c with enforceTranslated := ← Toml.boolean item }),
    ("plural-categories", fun item c => do
      return { c with categories := some (← Toml.list category item) })]

def repositoryTable : Toml.Record Config where
  name := "VcsConfig"
  required := []
  fields := [("backend", fun item c => do
    return { c with backend := ← Toml.variant (Backend.all.map fun b => (b.name, b)) item })]

def document : Toml.Record Config where
  name := "ToolConfig"
  required := []
  fields := [
    ("migrate", fun item c => migrateTable.decode c item),
    ("vcs", fun item c => repositoryTable.decode c item)]

def parse (path text : String) : Except MigrationError Config :=
  match Toml.read document empty text with
  | .error problem => .error (.config path (.document problem))
  | .ok c => if c.categories = some [] then .error (.config path .noCategories) else .ok c

/-- The configuration in a file; there need not be one. -/
def load (files : Files) (path : String) : Except MigrationError Config :=
  match files.read [] path with
  | .ok text => parse path text
  | .error .notFound => .ok empty
  | .error reason => .error (.config path (.unreadable reason))

def options (c : Config) : Options := ⟨c.categories, c.enforceTranslated⟩

end Config
end FluentMigration
