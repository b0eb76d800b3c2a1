import FluentMigration.Files
import FluentMigration.Glob.Pattern
/-!
The paths that a pattern matches in a tree of files, in the order of their names. `Glob.find`
follows the names of a pattern from place to place.
-/

namespace FluentMigration
namespace Glob

/-- A place that has been found: the path it is shown by, and its location. -/
structure Found where
  path : String
  location : Location
  deriving DecidableEq

/-- Whether a place is shown as the one where a search begins. -/
def Found.isHere (found : Found) : Bool :=
  !found.path.isEmpty && !isAbsolute found.path && (properNames found.path).isEmpty

/-- The place that a name leads to. Names in the place where the search began are shown alone. -/
def Found.step (found : Found) (name : String) (location : Location) : Found :=
  ⟨if found.isHere then name else joinPath found.path name, location⟩

def children (files : Files) (found : Found) : List Found :=
  (files.namesIn found.location).map fun name => found.step name (found.location ++ [name])

def below (files : Files) : Nat → Found → List Found
  | 0, _ => []
  | depth + 1, found => (children files found).flatMap fun c => c :: below files depth c

def depth (files : Files) : Nat := (files.nodes.map (·.1.length)).foldl max 0

def matchesName (tokens : List Token) (found : Found) : Bool :=
  (fileName? found.path).any fun name => accepts tokens name.toList

/-- The places that `.` and `..` lead to, if a pattern that begins with a point stands for them. -/
def pointNames (files : Files) (tokens : List Token) (found : Found) : List Found :=
  if tokens.head? = some (.char '.') && files.isDirectory found.location then
    (if accepts tokens ['.'] then [⟨joinPath found.path ".", found.location⟩] else []) ++
      (if accepts tokens ['.', '.'] then
        [⟨joinPath found.path "..", found.location.dropLast⟩] else [])
  else []

def stepTo (files : Files) (found : Found) (name : String) : List Found :=
  if !files.isDirectory found.location then []
  else if name = "" && found.isHere then []
  else if name = "" || name = "." then [found.step name found.location]
  else if name = ".." then [found.step name found.location.dropLast]
  else
    let location := found.location ++ [name]
    if files.existsAt location then [found.step name location] else []

/-- The places that patterns lead to from a place. After `**`, a name is looked for in every
directory; at the end, `**` stands for the directories themselves. -/
def find (files : Files) : List (List Token) → Found → List Found
  | [], found => [found]
  | pattern :: rest, found =>
    if pattern = [.directories] then
      match rest with
      | [] => (below files (depth files) found).filter (files.isDirectory ·.location)
      | next :: others =>
        if next = [.directories] then find files (next :: others) found
        else ((below files (depth files) found).filter (matchesName next)).flatMap
          (find files others)
    else match literal? pattern with
      | some name => (stepTo files found name).flatMap (find files rest)
      | none =>
        let named := (children files found).filter (matchesName pattern)
        (named ++ pointNames files pattern found).flatMap (find files rest)

def pathLe (a b : String) : Bool := !(properNames b).lex (properNames a)

def expand? (files : Files) (base : Location) (pattern : String) :
    Except Malformed (List String) := do
  let _ ← tokens pattern.toList
  let (start, rest) := match pattern.toList with
    | '/' :: rest => (Found.mk "/" [], rest)
    | rest => (Found.mk "." base, rest)
  let (patterns, closed) ← names rest
  let found := find files patterns start
  let found := if closed then found.filter (files.isDirectory ·.location) else found
  return (found.map (·.path)).mergeSort pathLe

end Glob
end FluentMigration
