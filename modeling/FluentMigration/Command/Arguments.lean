import FluentMigration.Text.Basic
/-!
The arguments of the command: options, which may stand anywhere, and recipes, or a subcommand in
front. Each option can be given once; `--` ends the options.
-/

namespace FluentMigration
namespace Command

structure Request where
  recipes : List String
  locale : Option String
  referenceDirectory : Option String
  localizationDirectory : Option String
  config : Option String
  dryRun : Bool
  json : Bool
  deriving DecidableEq, Inhabited

inductive Invocation where
  | migrate (request : Request)
  /-- Completions of command lines for a shell. -/
  | completions (shell : String)
  | help
  | version
  deriving DecidableEq, Inhabited

inductive Misuse where
  | unknownArgument (argument : String)
  | missingValue (option : String)
  | surplusValue (option : String)
  | repeated (option : String)
  | unknownShell (name : String)
  | missing (name : String)
  deriving DecidableEq, Inhabited

def Misuse.message : Misuse → String
  | unknownArgument argument => "unexpected argument '" ++ argument ++ "' found"
  | missingValue option => "a value is required for '" ++ option ++ "' but none was supplied"
  | surplusValue option => "unexpected value for '" ++ option ++ "' found; no more were expected"
  | repeated option => "the argument '" ++ option ++ "' cannot be used multiple times"
  | unknownShell name => "invalid value '" ++ name ++ "' for '<SHELL>'"
  | missing name => "the following required arguments were not provided: " ++ name

structure ValueOption where
  names : List String
  /-- Paths cannot be empty. -/
  isPath : Bool
  get : Request → Option String
  set : Request → String → Request

structure Flag where
  name : String
  get : Request → Bool
  set : Request → Request

def valueOptions : List ValueOption := [
  ⟨["--locale", "--lang"], false, (·.locale), fun r v => { r with locale := some v }⟩,
  ⟨["--reference-dir"], true, (·.referenceDirectory),
    fun r v => { r with referenceDirectory := some v }⟩,
  ⟨["--localization-dir"], true, (·.localizationDirectory),
    fun r v => { r with localizationDirectory := some v }⟩,
  ⟨["--config"], true, (·.config), fun r v => { r with config := some v }⟩]

def flags : List Flag := [
  ⟨"--dry-run", (·.dryRun), fun r => { r with dryRun := true }⟩,
  ⟨"--json", (·.json), fun r => { r with json := true }⟩]

def shells : List String := ["bash", "elvish", "fish", "powershell", "zsh"]

/-- Whether an argument cannot be a value: a dash alone can. -/
def isOption (argument : String) : Bool :=
  argument.toList.head? == some '-' && argument != "-"

def isLong (argument : String) : Bool := "--".toList.isPrefixOf argument.toList

/-- The name of a long option and the value behind an equals sign. -/
def splitOption (argument : String) : String × Option String :=
  match Text.cut '=' argument.toList with
  | some (name, value) => (String.ofList name, some (String.ofList value))
  | none => (argument, none)

def Flag.apply (f : Flag) (r : Request) (attached : Option String) : Except Misuse Request :=
  if attached.isSome then .error (.surplusValue f.name)
  else if f.get r then .error (.repeated f.name)
  else .ok (f.set r)

def ValueOption.apply (o : ValueOption) (name : String) (r : Request) (value : String) :
    Except Misuse Request :=
  if (o.get r).isSome then .error (.repeated name)
  else if o.isPath && value.isEmpty then .error (.missingValue name)
  else .ok (o.set r value)

def invocationOf? (name : String) : Option Invocation :=
  if name = "--help" then some .help else if name = "--version" then some .version else none

def shortInvocation (argument : String) : Except Misuse Invocation :=
  match argument.toList with
  | '-' :: 'h' :: _ => .ok .help
  | '-' :: 'V' :: _ => .ok .version
  | _ => .error (.unknownArgument argument)

/-- A request needs at least one recipe. -/
def finish (r : Request) : Except Misuse Invocation :=
  if r.recipes.isEmpty then .error (.missing "<RECIPE>...") else .ok (.migrate r)

def parseFrom (r : Request) : List String → Except Misuse Invocation
  | [] => finish r
  | argument :: rest =>
    if argument = "--" then finish { r with recipes := r.recipes ++ rest }
    else if isLong argument then
      let (name, attached) := splitOption argument
      match invocationOf? name, flags.find? (·.name == name),
          valueOptions.find? (·.names.contains name) with
      | some invocation, _, _ =>
        if attached.isSome then .error (.surplusValue name) else .ok invocation
      | none, some f, _ => do
        let r ← f.apply r attached
        parseFrom r rest
      | none, none, some o =>
        match attached, rest with
        | some value, rest => do
          let r ← o.apply name r value
          parseFrom r rest
        | none, value :: rest =>
          if isOption value then .error (.missingValue name)
          else do
            let r ← o.apply name r value
            parseFrom r rest
        | none, [] => .error (.missingValue name)
      | none, none, none => .error (.unknownArgument argument)
    else if isOption argument then shortInvocation argument
    else parseFrom { r with recipes := r.recipes ++ [argument] } rest

def addShell (shell : Option String) (name : String) : Except Misuse (Option String) :=
  if shell.isSome then .error (.unknownArgument name)
  else if shells.contains name then .ok (some name)
  else .error (.unknownShell name)

def parseShell (shell : Option String) : List String → Except Misuse Invocation
  | [] =>
    match shell with
    | some name => .ok (.completions name)
    | none => .error (.missing "<SHELL>")
  | argument :: rest =>
    if argument = "--" then do
      match ← rest.foldlM addShell shell with
      | some name => .ok (.completions name)
      | none => .error (.missing "<SHELL>")
    else if argument = "--help" then .ok .help
    else if isOption argument then
      if "-h".toList.isPrefixOf argument.toList then .ok .help
      else .error (.unknownArgument argument)
    else do parseShell (← addShell shell argument) rest

def subcommands : List String := ["completions", "help"]

def parse : List String → Except Misuse Invocation
  | "completions" :: rest => parseShell none rest
  | "help" :: rest =>
    match rest.find? (!subcommands.contains ·) with
    | some name => .error (.unknownArgument name)
    | none => .ok .help
  | arguments => parseFrom ⟨[], none, none, none, none, false, false⟩ arguments

end Command
end FluentMigration
