import FluentMigration.Command.Run
import Std.Time.DateTime.Timestamp
/-!
The command in the working directory. The files there are read, the command is run on them, and what
has changed is written back. Repository tools are not started from here: each one counts as not
installed, so that no file can be blamed and no commit is made.
-/

namespace FluentMigration
namespace Command

/-- The entries of a directory, nothing for a file. -/
def entriesOf? (entry : IO.FS.DirEntry) : IO (Option (List IO.FS.DirEntry)) := do
  try return some (← entry.path.readDir).toList
  catch _ => return none

/-- The nodes of an entry, and of those in it `depth` steps down. -/
def readTree (outer : Location) (entry : IO.FS.DirEntry) : Nat → IO (List (Location × Node))
  | 0 => return []
  | depth + 1 => do
    let location := outer ++ [entry.fileName]
    match ← entriesOf? entry with
    | some entries =>
      let below ← entries.mapM fun e => readTree location e depth
      return (location, .directory) :: below.flatten
    | none =>
      match String.fromUTF8? (← IO.FS.readBinFile entry.path) with
      | some text => return [(location, .text text)]
      | none => return [(location, .binary)]

def maxDepth : Nat := 64

def readFiles : IO Files := do
  let entries := (← (← IO.currentDir).readDir).toList
  return ⟨(← entries.mapM fun e => readTree [] e maxDepth).flatten⟩

/-- Writes what has come to be and removes what is no more. -/
def writeChanges (before after : Files) : IO Unit := do
  for (location, node) in after.nodes do
    if before.node? location != some node then
      let path := "/".intercalate ("." :: location)
      match node with
      | .text content => IO.FS.writeFile path content
      | .directory => IO.FS.createDirAll path
      | .binary => pure ()
  for (location, _) in before.nodes do
    if (after.node? location).isNone then IO.FS.removeFile ("/".intercalate ("." :: location))

def readVariables : IO (List (String × String)) := do
  return (← IO.getEnv localeVariable).toList.map (localeVariable, ·)

def execute (arguments : List String) : IO UInt32 := do
  let time ← Std.Time.Timestamp.now
  let env : Environment :=
    { files := ← readFiles
      envVars := ← readVariables
      blame := fun backend file => backend.blame (fun _ => .error .notFound) file
      accepts := fun _ => false
      now := time.toSecondsSinceUnixEpoch.val }
  let outcome := run env arguments
  writeChanges env.files outcome.state.files
  IO.print outcome.stdout
  IO.eprint outcome.stderr
  return outcome.code.toUInt32

end Command
end FluentMigration

def main (arguments : List String) : IO UInt32 := FluentMigration.Command.execute arguments
