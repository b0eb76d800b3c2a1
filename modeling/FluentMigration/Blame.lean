import FluentMigration.Changeset
import FluentMigration.Files
import FluentMigration.Legacy.Reader
/-!
Attribution of source strings. A string belongs to whoever last touched the line that its key is on.
Keys of Fluent files are found line by line: a message or term begins a line, an attribute follows
blanks and a point, and any other line that begins with text ends the message.
-/

namespace FluentMigration

structure BlameLine where
  author : String
  time : Int
  deriving DecidableEq, Inhabited

namespace KeyLines

def isBlank (c : Char) : Bool := c == ' ' || c == '\t'

def isNameChar (c : Char) : Bool := c.isAlphanum || c == '_' || c == '-'

/-- A name that an equals sign follows, blanks between them left aside. -/
def assigned? (s : List Char) : Option (List Char) :=
  if s.head?.any Char.isAlpha then
    match (s.dropWhile isNameChar).dropWhile isBlank with
    | '=' :: _ => some (s.takeWhile isNameChar)
    | _ => none
  else none

def message? : List Char → Option (List Char)
  | '-' :: r => (assigned? r).map ('-' :: ·)
  | line => assigned? line

def attribute? (line : List Char) : Option (List Char) :=
  if line.head?.any isBlank then
    match line.dropWhile isBlank with
    | '.' :: r => assigned? r
    | _ => none
  else none

/-- Keys with their lines, the first line being number `number`; `current` is the message that
attributes belong to. -/
def ofLines (number : Nat) (current : Option (List Char)) : List (List Char) → List (String × Nat)
  | [] => []
  | line :: rest =>
    match message? line with
    | some key => (String.ofList key, number) :: ofLines (number + 1) (some key) rest
    | none =>
      match attribute? line with
      | some attr =>
        match current with
        | some key =>
          (String.ofList (key ++ '.' :: attr), number) :: ofLines (number + 1) current rest
        | none => ofLines (number + 1) current rest
      | none =>
        if line.isEmpty || line.head?.any isBlank then ofLines (number + 1) current rest
        else ofLines (number + 1) none rest

def ofFluent (text : String) : List (String × Nat) := ofLines 1 none (Text.lines text.toList)

/-- The keys of a source file with the lines they are on. -/
def ofFile (path text : String) : List (String × Nat) :=
  if isFluentPath path then ofFluent text
  else
    match Legacy.Format.ofPath? path with
    | some format => (Legacy.Resource.parse format text).entries.map fun e => (e.key, e.line)
    | none => []

end KeyLines

namespace Attribution

/-- The authors with one more, unless they include it, and its position. -/
def addAuthor (authors : List String) (author : String) : List String × Nat :=
  match authors.idxOf? author with
  | some index => (authors, index)
  | none => (authors ++ [author], authors.length)

/-- Attributes keys to the authors of their lines; a key on a line without blame is left out. -/
def addKeys (lines : List BlameLine) (authors : List String) (keys : Table (Nat × Int)) :
    List (String × Nat) → List String × Table (Nat × Int)
  | [] => (authors, keys)
  | (key, number) :: rest =>
    match (if number = 0 then none else lines[number - 1]?) with
    | none => addKeys lines authors keys rest
    | some line =>
      let (authors, index) := addAuthor authors line.author
      addKeys lines authors (keys.insert key (index, line.time)) rest

def addFile (a : Attribution) (path text : String) (lines : List BlameLine) : Attribution :=
  let (authors, keys) := addKeys lines a.authors .empty (KeyLines.ofFile path text)
  ⟨authors, a.blame.insert path keys⟩

/-- Attributes the keys of files. A file that cannot be read or blamed is left out. -/
def ofFiles (read : String → Except FileError String)
    (blame : String → Except RepositoryError (List BlameLine)) (paths : List String) :
    Attribution :=
  paths.foldl (fun a path =>
    match read path, blame path with
    | .ok text, .ok lines => a.addFile path text lines
    | _, _ => a) .empty

end Attribution
end FluentMigration
