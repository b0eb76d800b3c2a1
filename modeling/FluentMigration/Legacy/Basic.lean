import FluentMigration.Text.Basic
/-!
Strings of the legacy localization formats: a key, its value with all escapes resolved, and the
lines of the file it stands on, which is what blame needs.
-/

namespace FluentMigration
namespace Legacy

structure Entry where
  key : String
  value : String
  /-- The line blame is asked about, counted from 1. -/
  line : Nat
  endLine : Nat
  /-- False for an entry of a bilingual file that still shows its source text. -/
  translated : Bool
  deriving DecidableEq, Inhabited

structure Resource where
  entries : List Entry
  deriving DecidableEq, Inhabited

/-- The last entry with the key. -/
def Resource.get (r : Resource) (key : String) : Option Entry :=
  r.entries.reverse.find? (·.key == key)

/-- One translated entry a line. -/
def Resource.ofPairs (pairs : List (String × String)) : Resource :=
  ⟨pairs.zipIdx.map fun ((key, value), i) => ⟨key, value, i + 1, i + 1, true⟩⟩

inductive Format where
  | properties
  | dtd
  | po
  deriving DecidableEq, Inhabited

def Format.name : Format → String
  | properties => "Properties"
  | dtd => "Dtd"
  | po => "Po"

/-- The format named by what follows the last point of a path. -/
def Format.ofPath? (path : String) : Option Format :=
  match Text.splitOn '.' path.toList with
  | _ :: p :: ps =>
    let extension := (p :: ps).getLast (by simp)
    if extension = "properties".toList then some .properties
    else if extension = "dtd".toList then some .dtd
    else if extension = "po".toList then some .po
    else none
  | _ => none

end Legacy
end FluentMigration
