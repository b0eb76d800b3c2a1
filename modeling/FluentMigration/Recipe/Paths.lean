import FluentMigration.Glob.Search
/-!
The recipe files that are meant by paths and path patterns.
-/

namespace FluentMigration
namespace Recipe

/-- The paths of an argument: a pattern stands for those it matches, which have to be some. -/
def pathsOf (files : Files) (argument : String) : Except MigrationError (List String) :=
  if Glob.isPattern argument then
    match Glob.expand? files [] argument with
    | .error reason => .error (.recipe argument (.malformedPattern reason))
    | .ok [] => .error (.recipe argument .noMatch)
    | .ok paths => .ok paths
  else .ok [argument]

def expandPaths (files : Files) (arguments : List String) :
    Except MigrationError (List String) := do
  return (← arguments.mapM (pathsOf files)).flatten

end Recipe
end FluentMigration
