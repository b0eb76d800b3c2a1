import FluentMigration.Blame
import FluentMigration.Json.Reader
/-!
The JSON output of Mercurial's annotate: for every file its lines, each with date and user. A record
may be given as an object, in which members that are not known do not matter, or as an array of its
fields.
-/

namespace FluentMigration
namespace Annotated

/-- The member of an object with a name, if there is exactly one. -/
def member? (name : String) (members : List (String × Json)) : Option Json :=
  match members.filter (·.1 == name) with
  | [(_, value)] => some value
  | _ => none

def clamp (time : Int) : Int := max Int64.minValue.toInt (min Int64.maxValue.toInt time)

/-- A date: seconds, whose part after the point is cut, and the offset of the time zone. -/
def time? : Json → Option Int
  | .array [.number seconds, .number offset] => do
    let _ ← offset.integer?
    let time ← (← seconds.double?).truncate?
    some (clamp time)
  | _ => none

def user? : Json → Option String
  | .string name => some name
  | _ => none

def line? : Json → Option BlameLine
  | .object members => do
    some ⟨← user? (← member? "user" members), ← time? (← member? "date" members)⟩
  | .array [date, user] => do
    some ⟨← user? user, ← time? date⟩
  | _ => none

def lines? : Json → Option (List BlameLine)
  | .array items => items.mapM line?
  | _ => none

def file? : Json → Option (List BlameLine)
  | .object members => member? "lines" members >>= lines?
  | .array [lines] => lines? lines
  | _ => none

def files? : Json → Option (List BlameLine)
  | .array items => (items.mapM file?).map List.flatten
  | _ => none

def parse (output : String) : Except RepositoryError (List BlameLine) :=
  match Json.parse? output >>= files? with
  | some lines => .ok lines
  | none => .error (.unparsed "hg annotate json" "not the lines of files")

end Annotated
end FluentMigration
