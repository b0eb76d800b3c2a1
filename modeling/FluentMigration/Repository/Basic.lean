import FluentMigration.Files
import FluentMigration.Repository.Annotated
import FluentMigration.Repository.Porcelain
import FluentMigration.Repository.Tool
/-!
Repositories in a tree of files: which kind of one a directory belongs to, and the requests that
blame a file and commit all changes.
-/

namespace FluentMigration

def Files.isGitData (files : Files) (location : Location) : Bool :=
  (files.node? (location ++ ["HEAD"])).any (· != .directory) &&
    files.isDirectory (location ++ ["objects"]) && files.isDirectory (location ++ ["refs"])

/-- Looks for a git repository in a directory and in those it lies in, the names to which come last
first. One without a working tree is refused. -/
def Files.findGit (files : Files) (shown : String) : List String → Except RepositoryError Unit
  | [] => check []
    (.error (.backend
      ("Could not find a git repository in '" ++ shown ++ "' or in any of its parents")))
  | name :: outer => check (name :: outer) (files.findGit shown outer)
where
  /-- Looks in one directory, then `otherwise`. -/
  check (reversed : List String) (otherwise : Except RepositoryError Unit) :
      Except RepositoryError Unit :=
    if files.isGitData reversed.reverse then
      .error (.unsupported shown "bare git repository has no working tree")
    else if files.isGitData (reversed.reverse ++ [".git"]) then .ok ()
    else otherwise

namespace Backend

def choose (files : Files) (location : Location) (shown : String) :
    Backend → Except RepositoryError Backend
  | auto =>
    if files.isDirectory (location ++ [".hg"]) then .ok hg
    else if files.existsAt (location ++ [".git"]) then .ok git
    else .error (.unsupported shown "no .hg or .git found")
  | explicit => .ok explicit

/-- Opens the repository of a directory: the backend it is worked on with. -/
def openIn (files : Files) (location : Location) (shown : String) (backend : Backend) :
    Except RepositoryError Backend := do
  let backend ← choose files location shown backend
  if backend = hg then
    if files.isDirectory (location ++ [".hg"]) then .ok hg
    else .error (.unsupported shown "no .hg directory")
  else
    files.findGit shown location.reverse
    .ok git

/-- Authors have an address for git, be it an empty one. -/
def gitAuthor (author : String) : String :=
  if author.toList.contains '<' && author.toList.getLast? == some '>' then author
  else author ++ " <>"

def blameCall (backend : Backend) (file : String) : ToolCall :=
  if backend = hg then
    ⟨"hg", ["annotate", "--template", "json", "--date", "--user", "--", file]⟩
  else ⟨"git", ["blame", "--porcelain", "--", file]⟩

def commitCalls (backend : Backend) (message author : String) : List ToolCall :=
  if backend = hg then
    [⟨"hg", ["commit", "--addremove", "--user", author, "--message", message]⟩]
  else
    [⟨"git", ["add", "."]⟩,
      ⟨"git", ["commit", "--author=" ++ gitAuthor author, "--message=" ++ message]⟩]

def blame (backend : Backend) (tool : Tool) (file : String) :
    Except RepositoryError (List BlameLine) := do
  let output ← (backend.blameCall file).output tool
  if backend = hg then Annotated.parse output else Porcelain.parse output

end Backend
end FluentMigration
