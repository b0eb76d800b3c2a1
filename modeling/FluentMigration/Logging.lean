import FluentMigration.Text.Basic
/-!
How events are logged, as an environment variable says.
-/

namespace FluentMigration

inductive LogFormat where
  | text
  | json
  | off
  deriving DecidableEq, Inhabited

namespace LogFormat

def variableName : String := "L10N_MIGRATE_LOG"

/-- The format of a name: blanks around it and the case of its letters do not matter, and a name
that is not known stands for text. -/
def ofName? (name : Option String) : LogFormat :=
  match name.map fun n => (Text.trim Text.isBlank n.toList).map Char.toLower with
  | some ['j', 's', 'o', 'n'] => json
  | some ['o', 'f', 'f'] => off
  | _ => text

end LogFormat
end FluentMigration
