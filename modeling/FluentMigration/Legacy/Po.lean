import FluentMigration.Legacy.Basic
import FluentMigration.Text.Basic
/-!
The bilingual `.po` format. An entry is found under its `msgid`, with its `msgctxt` before it if
there is one; the header, an empty `msgid` without context, is left out. An entry that is fuzzy or
not translated shows its source text. Plural forms are joined with semicolons.
-/

namespace FluentMigration
namespace Legacy
namespace Po

/-- Stands between the context and the id in a key. -/
def contextSeparator : Char := '\x04'

def key (msgid : String) (msgctxt : Option String) : String :=
  match msgctxt with
  | none => msgid
  | some context => context ++ contextSeparator.toString ++ msgid

/-- What a line of nothing but a string adds to. -/
inductive Field where
  | context
  | id
  | idPlural
  | form
  deriving DecidableEq

/-- An entry as far as it has been read; its lines are 0 before the first. -/
structure Pending where
  context : Option (List Char)
  id : Option (List Char)
  forms : List (List Char)
  fuzzy : Bool
  formLine : Option Nat
  firstLine : Nat
  lastLine : Nat
  deriving DecidableEq

def Pending.empty : Pending := ⟨none, none, [], false, none, 0, 0⟩

/-- The entry, unless it has no id or is the header. -/
def Pending.finish (p : Pending) : List Entry :=
  match p.id with
  | none => []
  | some id =>
    if id.isEmpty && p.context.isNone then []
    else
      let translated := !p.fuzzy && p.forms.any (!·.isEmpty)
      let value := if translated then Text.join [';'] p.forms else id
      [⟨key (String.ofList id) (p.context.map String.ofList), String.ofList value,
        p.formLine.getD p.firstLine, p.lastLine, translated⟩]

/-- Puts an entry that already has an id aside: what comes next begins a new one. -/
def Pending.next (p : Pending) : List Entry × Pending :=
  if p.id.isSome then (p.finish, .empty) else ([], p)

def addToLast (more : List Char) : List (List Char) → List (List Char)
  | [] => []
  | [form] => [form ++ more]
  | form :: rest => form :: addToLast more rest

def Pending.append (p : Pending) (field : Option Field) (more : List Char) : Pending :=
  match field with
  | some .context => { p with context := p.context.map (· ++ more) }
  | some .id => { p with id := p.id.map (· ++ more) }
  | some .form => { p with forms := addToLast more p.forms }
  | _ => p

def Pending.reach (p : Pending) (number : Nat) : Pending :=
  { p with
    firstLine := if p.firstLine = 0 then number else p.firstLine
    lastLine := number }

def unescape : List Char → List Char
  | [] => []
  | ['\\'] => []
  | '\\' :: c :: r =>
    (if c = 'n' then '\n' else if c = 't' then '\t' else if c = 'r' then '\r' else c) :: unescape r
  | c :: r => c :: unescape r

/-- The text of a string: its quotes, if it has both, are dropped. -/
def unquote (quoted : List Char) : List Char :=
  match quoted with
  | '"' :: c :: r =>
    if (c :: r).getLast? = some '"' then unescape (c :: r).dropLast else unescape quoted
  | _ => unescape quoted

def splitWord (line : List Char) : List Char × List Char :=
  (line.takeWhile (!Text.isBlank ·), (line.dropWhile (!Text.isBlank ·)).drop 1)

/-- Whether a list of flags, set off by commas, names `fuzzy`. -/
def hasFuzzy (flags : List Char) : Bool :=
  (Text.splitOn ',' flags).any fun flag => Text.trim Text.isBlank flag == "fuzzy".toList

/-- The state of reading: the entry begun and the field that strings add to. -/
structure State where
  pending : Pending
  field : Option Field

def State.start : State := ⟨.empty, none⟩

def State.keyword (state : State) (number : Nat) (line : List Char) : List Entry × State :=
  let (word, rest) := splitWord line
  let value := unquote (Text.trim Text.isBlank rest)
  let p := state.pending
  if word = "msgctxt".toList then
    let (done, p) := p.next
    (done, ⟨{ p with context := some value }.reach number, some .context⟩)
  else if word = "msgid".toList then
    let (done, p) := p.next
    (done, ⟨{ p with id := some value }.reach number, some .id⟩)
  else if word = "msgid_plural".toList then ([], ⟨p.reach number, some .idPlural⟩)
  else if word = "msgstr".toList then
    let p := { p with forms := [value], formLine := some (p.formLine.getD number) }
    ([], ⟨p.reach number, some .form⟩)
  else if "msgstr[".toList.isPrefixOf word then
    let p := { p with forms := p.forms ++ [value], formLine := some (p.formLine.getD number) }
    ([], ⟨p.reach number, some .form⟩)
  else ([], state)

/-- One line without the blanks around it: the entries it ends and the state after it. -/
def State.line (state : State) (number : Nat) : List Char → List Entry × State
  | [] => ([], state)
  | '#' :: ',' :: flags =>
    let (done, p) := state.pending.next
    (done, ⟨{ p with fuzzy := p.fuzzy || hasFuzzy flags }, none⟩)
  | '#' :: _ => ([], state)
  | '"' :: r =>
    let p := state.pending.append state.field (unquote ('"' :: r))
    ([], { state with pending := { p with lastLine := number } })
  | line => state.keyword number line

def entriesFrom (number : Nat) (state : State) : List (List Char) → List Entry
  | [] => state.pending.finish
  | line :: rest =>
    let (done, state) := state.line number (Text.trim Text.isBlank line)
    done ++ entriesFrom (number + 1) state rest

def parse (s : List Char) : List Entry := entriesFrom 1 .start (Text.splitOn '\n' s)

end Po
end Legacy
end FluentMigration
