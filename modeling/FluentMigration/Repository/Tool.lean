import FluentMigration.Error
import FluentMigration.Text.Basic
/-!
The kinds of repository a localization can lie in, and the command-line tools that they are worked
on with: what the tools are asked, and what their answers mean.
-/

namespace FluentMigration

inductive Backend where
  /-- Whichever is found in the directory. -/
  | auto
  | git
  | hg
  deriving DecidableEq, Inhabited

namespace Backend

def all : List Backend := [auto, git, hg]

def name : Backend → String
  | auto => "auto"
  | git => "git"
  | hg => "hg"

end Backend

structure ToolCall where
  program : String
  arguments : List String
  deriving DecidableEq, Inhabited

structure Reply where
  succeeded : Bool
  output : String
  errors : String
  deriving DecidableEq, Inhabited

abbrev Tool := ToolCall → Except FileError Reply

namespace ToolCall

def text (call : ToolCall) : String := " ".intercalate (call.program :: call.arguments)

def output (call : ToolCall) (tool : Tool) : Except RepositoryError String :=
  match tool call with
  | .error reason => .error (.file reason)
  | .ok reply =>
    if reply.succeeded then .ok reply.output
    else .error (.commandFailed call.text
      (String.ofList (Text.trim Text.isBlank reply.errors.toList)))

/-- Makes requests one after another until one fails: those that were made, and why the last one
failed. -/
def perform (tool : Tool) : List ToolCall → List ToolCall × Option RepositoryError
  | [] => ([], none)
  | call :: rest =>
    match call.output tool with
    | .error e => ([call], some e)
    | .ok _ =>
      let (made, failure) := perform tool rest
      (call :: made, failure)

end ToolCall
end FluentMigration
