import FluentMigration.Blame
import FluentMigration.Text.Number
import FluentMigration.Text.Quoted
/-!
The line-by-line output of git's blame. Every line of the file stands behind a tab, after the
headers of its commit; the author is told only where a commit comes first, so that it is kept by
commit.
-/

namespace FluentMigration
namespace Porcelain

structure Author where
  name : String
  mail : String
  time : Int
  deriving DecidableEq, Inhabited

namespace Author

def unknown : Author := ⟨"", "", 0⟩

/-- The author of a line, with the mail address if there is one. -/
def blameLine (a : Author) : BlameLine :=
  ⟨if a.mail.isEmpty then a.name else a.name ++ " " ++ a.mail, a.time⟩

end Author

inductive Header where
  | content
  | author (name : String)
  | mail (address : String)
  | time (text : List Char)
  | commit (hash : String)
  | other
  deriving DecidableEq, Inhabited

def isHash (word : List Char) : Bool :=
  (word.length == 40 || word.length == 64) && word.all Text.isHex

def after? (word : String) (line : List Char) : Option (List Char) :=
  if word.toList.isPrefixOf line then some (line.drop word.length) else none

def Header.ofLine (line : List Char) : Header :=
  if line.head? = some '\t' then .content
  else match after? "author " line with
    | some name => .author (String.ofList name)
    | none =>
      match after? "author-mail " line with
      | some address => .mail (String.ofList address)
      | none =>
        match after? "author-time " line with
        | some text => .time text
        | none =>
          let word := line.takeWhile (· != ' ')
          if isHash word then .commit (String.ofList word) else .other

/-- The authors that are known so far, and the commit that the next lines belong to. -/
structure State where
  authors : Table Author
  current : String

namespace State

def empty : State := ⟨.empty, ""⟩

def author (s : State) : Author := (s.authors.get? s.current).getD .unknown

def modify (s : State) (f : Author → Author) : State :=
  { s with authors := s.authors.insert s.current (f s.author) }

end State

/-- The number in a header of a time, with blanks around it. -/
def time? (text : List Char) : Except RepositoryError Int :=
  match Text.integer? (Text.trim Text.isBlank text) with
  | .ok time => .ok time
  | .error fault => .error (.unparsed "git blame author-time"
      (Text.quote (String.ofList text) ++ ": " ++ fault.message))

def blameLines (s : State) : List (List Char) → Except RepositoryError (List BlameLine)
  | [] => .ok []
  | line :: rest =>
    match Header.ofLine line with
    | .content => (blameLines s rest).map (s.author.blameLine :: ·)
    | .author name => blameLines (s.modify ({ · with name })) rest
    | .mail address => blameLines (s.modify ({ · with mail := address })) rest
    | .time text => do
      let time ← time? text
      blameLines (s.modify ({ · with time })) rest
    | .commit hash => blameLines { s with current := hash } rest
    | .other => blameLines s rest

def parse (output : String) : Except RepositoryError (List BlameLine) :=
  blameLines .empty (Text.lines output.toList)

end Porcelain
end FluentMigration
