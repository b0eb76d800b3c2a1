import FluentMigration.Text.Basic
import FluentMigration.Toml.Lexeme
/-!
The reader of TOML documents. Values can hold each other down to a limit. Every value and every
table knows its line; a document that cannot be read is refused with the line where reading
stopped.
-/

namespace FluentMigration
namespace Toml

/-- The line of the text that is still to be read, if the whole text has `last` lines. -/
def lineOf (last : Nat) (rest : List Char) : Nat := last - Text.newlines rest

def startsValue (c : Char) : Bool :=
  c.isDigit || "\"'[\x7b+-_.tfin".toList.contains c

def keyword (word : String) (value : Value) (s : List Char) : Except Failure (Value × List Char) :=
  if word.toList.isPrefixOf s then .ok (value, s.drop word.length)
  else .error ⟨⟨some "string", ["`\"`", "`'`"], none⟩, s⟩

mutual

/-- A value; `depth` more brackets may be opened in it. -/
def readValue (last : Nat) : Nat → Nat → List Char → Except Failure (Value × List Char)
  | 0, _, s => .error ⟨.ofConflict .tooDeep, s⟩
  | _ + 1, _, [] => .error ⟨⟨none, [], none⟩, []⟩
  | n + 1, depth, c :: r =>
    if c = '[' then
      match depth with
      | 0 => .error ⟨.ofConflict .tooDeep, c :: r⟩
      | depth + 1 => do
        let (items, s) ← readItems last n depth (skipTrivia r)
        .ok (.array items, s)
    else if c = '\x7b' then
      match depth with
      | 0 => .error ⟨.ofConflict .tooDeep, c :: r⟩
      | depth + 1 => do
        let (pairs, s) ← readPairs last n depth (skipBlanks r)
        let add := fun fields (path, field) => Fields.insert fields path field none
        match pairs.foldlM add [] with
        | .ok fields => .ok (.table .inline fields, s)
        | .error conflict => .error ⟨.ofConflict conflict, r⟩
    else if c = '"' || c = '\'' then
      (quoted (c :: r)).map fun (text, s) => (.string text, s)
    else if c = 't' then keyword "true" (.boolean true) (c :: r)
    else if c = 'f' then keyword "false" (.boolean false) (c :: r)
    else if startsValue c then number (c :: r)
    else .error ⟨⟨some "string", ["`\"`", "`'`"], none⟩, c :: r⟩

def readItems (last : Nat) : Nat → Nat → List Char → Except Failure (List Item × List Char)
  | 0, _, s => .error ⟨.ofConflict .tooDeep, s⟩
  | n + 1, depth, s =>
    match s with
    | ']' :: r => .ok ([], r)
    | _ =>
      if s.head?.any startsValue then do
        let (value, r) ← readValue last n depth s
        let item := Item.mk (lineOf last s) value
        match skipTrivia r with
        | ']' :: r => .ok ([item], r)
        | ',' :: r =>
          let (items, r) ← readItems last n depth (skipTrivia r)
          .ok (item :: items, r)
        | r => .error ⟨⟨some "array", ["`]`"], none⟩, r⟩
      else .error ⟨⟨some "array", ["`]`"], none⟩, s⟩

/-- The keys and values of a table in braces up to the closing one. -/
def readPairs (last : Nat) :
    Nat → Nat → List Char → Except Failure (List (List String × Field) × List Char)
  | 0, _, s => .error ⟨.ofConflict .tooDeep, s⟩
  | n + 1, depth, s =>
    match s with
    | '\x7d' :: r => .ok ([], r)
    | _ =>
      if s.head?.any (fun c => isKeyChar c || c == '"' || c == '\'') then do
        let (pair, r) ← readPair last n depth s
        match skipBlanks r with
        | '\x7d' :: r => .ok ([pair], r)
        | ',' :: r =>
          match skipBlanks r with
          | '\x7d' :: _ => .error ⟨⟨some "inline table", ["`\x7d`"], none⟩, r⟩
          | next =>
            let (pairs, r) ← readPairs last n depth next
            .ok (pair :: pairs, r)
        | r => .error ⟨⟨some "inline table", ["`\x7d`"], none⟩, r⟩
      else .error ⟨⟨some "inline table", ["`\x7d`"], none⟩, s⟩

def readPair (last : Nat) :
    Nat → Nat → List Char → Except Failure ((List String × Field) × List Char)
  | 0, _, s => .error ⟨.ofConflict .tooDeep, s⟩
  | n + 1, depth, s => do
    let (path, name, r) ← key s
    match r with
    | '=' :: r =>
      let (value, r) ← readValue last n depth (skipBlanks r)
      .ok ((path, ⟨name, lineOf last s, value⟩), r)
    | _ => .error ⟨.ofExpected ["`.`", "`=`"], r⟩

end

def readHeader (last : Nat) (s : List Char) : Except Failure (Header × List Char) := do
  let (repeated, inner) := match s with
    | '[' :: r => (true, r)
    | r => (false, r)
  let (outer, name, r) ← key inner
  let close := if repeated then "]]" else "]"
  if close.toList.isPrefixOf r then
    let r ← endLine (r.drop close.length)
    .ok (⟨outer, name, lineOf last s, repeated⟩, r)
  else .error ⟨⟨some "table header", ["`.`", "`" ++ close ++ "`"], none⟩, r⟩

/-- The lines of a document, added to what was read before them. -/
def readLines (last : Nat) : Nat → Draft → List Char → Except Failure Draft
  | 0, _, s => .error ⟨.ofConflict .tooDeep, s⟩
  | n + 1, draft, s =>
    match skipBlanks s with
    | [] => .ok draft
    | '#' :: r => do
      let r ← endLine ('#' :: r)
      readLines last n draft r
    | '[' :: r => do
      let (header, rest) ← readHeader last r
      match draft.start header with
      | .ok draft => readLines last n draft rest
      | .error conflict => .error ⟨⟨some "table header", [], some conflict⟩, r⟩
    | c :: r =>
      match newline? (c :: r) with
      | some r => readLines last n draft r
      | none =>
        if c = '\r' then .error ⟨⟨none, [], none⟩, c :: r⟩
        else do
          let ((path, field), rest) ← readPair last n maxDepth (c :: r)
          let rest ← endLine rest
          match draft.add path field with
          | .ok draft => readLines last n draft rest
          | .error conflict => .error ⟨.ofConflict conflict, c :: r⟩

def withoutMark : List Char → List Char
  | c :: r => if c.toNat = 0xFEFF then r else c :: r
  | [] => []

/-- The root table of a document, which begins on the first line. -/
def parse (text : String) : Except Problem Item :=
  let s := withoutMark text.toList
  let last := Text.newlines s + 1
  match readLines last (2 * s.length + 2) .empty s with
  | .error failure => .error ⟨lineOf last failure.rest, .malformed failure.reason⟩
  | .ok draft =>
    match draft.finish with
    | .error conflict => .error ⟨last, .malformed (.ofConflict conflict)⟩
    | .ok fields => .ok ⟨1, .table .header fields⟩

end Toml
end FluentMigration
