import FluentMigration.Error
import FluentMigration.Text.Basic
/-!
A tree of files, and reading and writing in it by path. A path is followed name by name: every name
but the last has to lead to a directory, `.` stays where it is and `..` goes up.
-/

namespace FluentMigration

inductive Node where
  | text (content : String)
  /-- A file whose content is no text. -/
  | binary
  | directory
  deriving DecidableEq, Inhabited

abbrev Location := List String

structure Files where
  nodes : List (Location × Node)
  deriving DecidableEq, Inhabited

/-- The names of a path; an empty one stands between two slashes and after a last one. -/
def pathNames (path : String) : List String :=
  (Text.splitOn '/' path.toList).map String.ofList

def isAbsolute (path : String) : Bool := path.toList.head? == some '/'

def joinPath (base path : String) : String :=
  if isAbsolute path || base.isEmpty then path
  else if base.toList.getLast? == some '/' then base ++ path
  else base ++ "/" ++ path

/-- The names of a path without those that stay where they are. -/
def properNames (path : String) : List String :=
  (pathNames path).filter fun name => name != "" && name != "."

/-- The last name of a path, unless it goes up. -/
def fileName? (path : String) : Option String :=
  match (properNames path).getLast? with
  | some ".." => none
  | other => other

/-- A file name cut at its last point, unless it begins with that point. -/
def splitName (name : String) : String × Option String :=
  let reversed := name.toList.reverse
  match reversed.dropWhile (· != '.') with
  | '.' :: [] => (name, none)
  | '.' :: stem =>
    (String.ofList stem.reverse, some (String.ofList (reversed.takeWhile (· != '.')).reverse))
  | _ => (name, none)

/-- What follows the last point of a path's file name. -/
def extension? (path : String) : Option String :=
  (fileName? path).bind fun name => (splitName name).2

/-- The file name of a path without its extension, or the path itself if it has no file name. -/
def pathStem (path : String) : String :=
  match fileName? path with
  | some name => (splitName name).1
  | none => path

namespace Files

def empty : Files := ⟨[]⟩

def node? (files : Files) (location : Location) : Option Node := files.nodes.lookup location

def hasBelow (files : Files) (location : Location) : Bool :=
  files.nodes.any fun (other, _) =>
    location.isPrefixOf other && location.length < other.length

def isDirectory (files : Files) (location : Location) : Bool :=
  location.isEmpty || files.node? location == some .directory || files.hasBelow location

def existsAt (files : Files) (location : Location) : Bool :=
  files.isDirectory location || (files.node? location).isSome

def namesIn (files : Files) (location : Location) : List String :=
  (files.nodes.filterMap fun (other, _) =>
    if location.isPrefixOf other then (other.drop location.length).head? else none).eraseDups

/-- Puts a node at a location, in the place of what is there. -/
def put (files : Files) (location : Location) (node : Node) : Files :=
  if (files.node? location).isSome then
    ⟨files.nodes.map fun (other, old) => if other = location then (other, node) else (other, old)⟩
  else ⟨files.nodes ++ [(location, node)]⟩

def remove (files : Files) (location : Location) : Files :=
  ⟨files.nodes.filter fun (other, _) => other != location⟩

/-- Goes on from a location along names. The last name need not lead anywhere. -/
def follow (files : Files) (location : Location) : List String → Except FileError Location
  | [] => .ok location
  | name :: rest =>
    if files.isDirectory location then
      if name = "" || name = "." then files.follow location rest
      else if name = ".." then files.follow location.dropLast rest
      else files.follow (location ++ [name]) rest
    else if (files.node? location).isSome then .error .notDirectory
    else .error .notFound

def locate (files : Files) (base : Location) (path : String) : Except FileError Location :=
  if isAbsolute path then files.follow [] (pathNames path) else files.follow base (pathNames path)

def readAt (files : Files) (location : Location) : Except FileError String :=
  match files.node? location with
  | some (.text content) => .ok content
  | some .binary => .error .notText
  | _ => if files.isDirectory location then .error .isDirectory else .error .notFound

def read (files : Files) (base : Location) (path : String) : Except FileError String := do
  let location ← files.locate base path
  files.readAt location

def makeDirectory (files : Files) (base : Location) (names : List String) :
    Except FileError Files := do
  let location ← files.follow base names
  if files.existsAt location then .error .occupied else .ok (files.put location .directory)

def leadsToDirectory (files : Files) (base : Location) (names : List String) : Bool :=
  match files.follow base names with
  | .ok location => files.isDirectory location
  | .error _ => false

/-- Makes a directory unless it is there. -/
def ensureDirectory (files : Files) (base : Location) (names : List String) :
    Except FileError Files :=
  match files.makeDirectory base names with
  | .ok files => .ok files
  | .error reason => if files.leadsToDirectory base names then .ok files else .error reason

/-- Makes a directory and those it lies in, as far as they are not there; the names that lead to
it come last first. -/
def makeDirectories (files : Files) (base : Location) : List String → Except FileError Files
  | [] => .ok files
  | name :: outer =>
    match files.ensureDirectory base (name :: outer).reverse with
    | .error .notFound => do
      let files ← files.makeDirectories base outer
      files.ensureDirectory base (name :: outer).reverse
    | result => result

def write (files : Files) (base : Location) (names : List String) (content : String) :
    Except FileError Files := do
  let location ← files.follow base names
  if files.isDirectory location then .error .isDirectory
  else .ok (files.put location (.text content))

/-- Moves a file to where other names lead, in the place of a file that is there. Names that end in
an empty one could only lead to a directory. -/
def rename (files : Files) (base : Location) (old new : List String) :
    Except FileError Files := do
  let source ← files.follow base old
  if new.getLast? = some "" then .error .notDirectory
  let target ← files.follow base new
  if files.isDirectory target then .error .isDirectory
  else match files.node? source with
    | some node => .ok ((files.remove source).put target node)
    | none => .error .notFound

end Files

/-- A directory of a tree of files, with the name it is shown by. -/
structure Directory where
  files : Files
  location : Location
  shown : String
  deriving Inhabited

namespace Directory

def read (d : Directory) (path : String) : Except FileError String := d.files.read d.location path

def showPath (d : Directory) (path : String) : String := joinPath d.shown path

end Directory
end FluentMigration
