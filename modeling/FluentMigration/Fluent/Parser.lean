import FluentMigration.Fluent.Dedent
import FluentMigration.Fluent.Lexeme
import FluentMigration.Fluent.Resource
import FluentMigration.Text.Basic
/-!
The reader of Fluent source. `Resource.parse` is total: text that is no entry becomes junk up to the
next line that could begin one. The text is first cut into blocks (an entry, the text it was read
from, the blank lines after it), which together make up the whole text; a comment directly before a
message or term is then attached to it.

The readers of patterns and expressions call each other and follow nested expressions down to a
limit.
-/

namespace FluentMigration
namespace Fluent

def variantKey (s : List Char) : Except Failure (VariantKey × List Char) := do
  let s := skipBlank s
  let (key, s) ←
    if s.head?.any (fun c => isDigit c || c == '-') then
      (number s).map fun (raw, r) => (VariantKey.number raw, r)
    else
      (identifier s).map fun (name, r) => (VariantKey.identifier name, r)
  let s ← expect ']' (skipBlank s)
  .ok (key, s)

/-- Refuses what cannot choose between variants. -/
def checkSelector (selector : Inline) (s : List Char) : Except Failure Unit :=
  match selector with
  | .message _ _ => .error ⟨.messageSelector, s⟩
  | .term _ none _ => .error ⟨.termSelector, s⟩
  | _ => .ok ()

def checkPlaceable (content : Inline) (s : List Char) : Except Failure Unit :=
  match content with
  | .term _ (some _) _ => .error ⟨.termAttribute, s⟩
  | _ => .ok ()

/-- A list of variants is complete if it is not empty and has a default. -/
def checkVariants (variants : List Variant) (s : List Char) : Except Failure Unit :=
  if variants.isEmpty then .error ⟨.noVariant, s⟩
  else if variants.any (·.isDefault) then .ok ()
  else .error ⟨.noDefault, s⟩

def literal (s : List Char) : Except Failure (Inline × List Char) :=
  match s with
  | '"' :: _ => (stringLiteral s).map fun (raw, r) => (.string raw, r)
  | _ =>
    if s.head?.any (fun c => isDigit c || c == '-') then
      (number s).map fun (raw, r) => (.number raw, r)
    else .error ⟨.namedArgument, s⟩

/-- The pattern after `=` or a variant key, if there is one, its pieces read by `pieces`. -/
def optionalPattern (pieces : List Char → Except Failure (List Piece × List Char))
    (s : List Char) : Except Failure (Option Pattern × List Char) :=
  let s := skipSpaces s
  let startsBlock := s.head?.all (· == '\n')
  if startsBlock && (continuation s).isNone then .ok (none, s)
  else do
    let (ps, r) ← pieces s
    .ok (some (Pattern.ofPieces startsBlock ps), r)

mutual

/-- The pieces of a pattern up to the end of its last line. -/
def readPieces : Nat → List Char → Except Failure (List Piece × List Char)
  | 0, s => .error ⟨.tooDeep, s⟩
  | _ + 1, [] => .ok ([], [])
  | n + 1, c :: r =>
    if c = '\n' then
      match continuation (c :: r) with
      | none => .ok ([], c :: r)
      | some next => do
        let (ps, s) ← readPieces n next.rest
        .ok (.indent next.newlines next.width :: ps, s)
    else if c = '\x7b' then do
      let (content, s) ← readPlaceable n (c :: r)
      let (ps, s) ← readPieces n s
      .ok (.placeable content :: ps, s)
    else if c = '\x7d' then .error ⟨.closingBrace, c :: r⟩
    else do
      let (ps, s) ← readPieces n (r.dropWhile isTextChar)
      .ok (.text (String.ofList (c :: r.takeWhile isTextChar)) :: ps, s)

def readPlaceable : Nat → List Char → Except Failure (Expression × List Char)
  | 0, s => .error ⟨.tooDeep, s⟩
  | n + 1, s => do
    let s ← expect '\x7b' s
    let (content, s) ← readExpression n (skipBlank s)
    let s ← expect '\x7d' (skipBlank s)
    .ok (content, s)

def readExpression : Nat → List Char → Except Failure (Expression × List Char)
  | 0, s => .error ⟨.tooDeep, s⟩
  | n + 1, s => do
    let (content, s) ← readInline n s
    match skipBlank s with
    | '-' :: '>' :: r =>
      checkSelector content ('-' :: '>' :: r)
      let r := skipSpaces r
      if r.head? = some '\n' then
        let (variants, r) ← readVariants n false r
        checkVariants variants r
        .ok (.select content variants, r)
      else .error ⟨.lineEnd, r⟩
    | s =>
      checkPlaceable content s
      .ok (.inline content, s)

/-- The variants of a select expression, and the blanks after them. -/
def readVariants : Nat → Bool → List Char → Except Failure (List Variant × List Char)
  | 0, _, s => .error ⟨.tooDeep, s⟩
  | n + 1, hasDefault, s => do
    let s := skipBlank s
    let isDefault := s.head? == some '*'
    let s := if isDefault then s.drop 1 else s
    match s with
    | '[' :: r =>
      if isDefault && hasDefault then .error ⟨.secondDefault, s⟩
      else
        let (key, r) ← variantKey r
        match ← optionalPattern (readPieces n) r with
        | (none, r) => .error ⟨.emptyVariant, r⟩
        | (some value, r) =>
          let (variants, r) ← readVariants n (hasDefault || isDefault) r
          .ok (⟨key, value, isDefault⟩ :: variants, r)
    | s => if isDefault then .error ⟨.character '[', s⟩ else .ok ([], s)

def readInline : Nat → List Char → Except Failure (Inline × List Char)
  | 0, s => .error ⟨.tooDeep, s⟩
  | _ + 1, [] => .error ⟨.inlineExpression, []⟩
  | n + 1, c :: r =>
    if c = '\x7b' then do
      let (content, s) ← readPlaceable n (c :: r)
      .ok (.placeable content, s)
    else if c = '"' then do
      let (raw, s) ← stringLiteral (c :: r)
      .ok (.string raw, s)
    else if isDigit c || c == '-' && r.head?.any isDigit then do
      let (raw, s) ← number (c :: r)
      .ok (.number raw, s)
    else if c = '-' then do
      let (id, s) ← identifier r
      let (attr, s) ← accessor s
      match s with
      | '(' :: s =>
        let (arguments, s) ← readArguments n ⟨[], []⟩ s
        .ok (.term id attr (some arguments), s)
      | s => .ok (.term id attr none, s)
    else if c = '$' then do
      let (id, s) ← identifier r
      .ok (.variable id, s)
    else if isLetter c then do
      let (id, s) ← identifier (c :: r)
      match s with
      | '(' :: s' =>
        if isCallee id.toList then
          let (arguments, s) ← readArguments n ⟨[], []⟩ s'
          .ok (.function id arguments, s)
        else .error ⟨.callee id, s⟩
      | s =>
        let (attr, s) ← accessor s
        .ok (.message id attr, s)
    else .error ⟨.inlineExpression, c :: r⟩

/-- The arguments of a call after the opening parenthesis or a comma, `found` being those before. -/
def readArguments : Nat → Arguments → List Char → Except Failure (Arguments × List Char)
  | 0, _, s => .error ⟨.tooDeep, s⟩
  | n + 1, found, s =>
    match skipBlank s with
    | ')' :: r => .ok (found, r)
    | s => do
      let (value, s) ← readInline n s
      let s := skipBlank s
      let (found, s) ← (match s with
        | ':' :: r =>
          match value with
          | .message name none => do
            let (value, r) ← literal (skipBlank r)
            if found.named.any (·.name == name) then .error ⟨.repeatedArgument name, r⟩
            else .ok ({ found with named := found.named ++ [⟨name, value⟩] }, r)
          | _ => .error ⟨.argumentName, s⟩
        | s =>
          if found.named.isEmpty then
            .ok ({ found with positional := found.positional ++ [value] }, s)
          else .error ⟨.positionalAfterNamed, s⟩ : Except Failure (Arguments × List Char))
      match skipBlank s with
      | ',' :: r => readArguments n found r
      | ')' :: r => .ok (found, r)
      | s => .error ⟨.argumentEnd, s⟩

end

/-- The value after `=` or a variant key, nested at most `limit` deep. -/
def readValue (limit : Nat) (s : List Char) : Except Failure (Option Pattern × List Char) :=
  optionalPattern (readPieces limit) s

/-- What follows the point of an attribute on one of the next lines. -/
def attributeStart : List Char → Option (List Char)
  | '\n' :: r =>
    match skipBlank r with
    | '.' :: s => some s
    | _ => none
  | _ => none

def readAttribute (limit : Nat) (s : List Char) : Except Failure (Attribute × List Char) := do
  let (id, s) ← identifier s
  let s ← expect '=' (skipSpaces s)
  match ← readValue limit s with
  | (some value, s) => .ok (⟨id, value⟩, s)
  | (none, s) => .error ⟨.emptyAttribute id, s⟩

def readAttributes (limit : Nat) : Nat → List Char → Except Failure (List Attribute × List Char)
  | 0, s => .ok ([], s)
  | count + 1, s =>
    match attributeStart s with
    | none => .ok ([], s)
    | some r => do
      let (first, r) ← readAttribute limit r
      let (others, r) ← readAttributes limit count r
      .ok (first :: others, r)

def readMessage (limit : Nat) (s : List Char) : Except Failure (Message × List Char) := do
  let (id, s) ← identifier s
  let s ← expect '=' (skipSpaces s)
  let (value, s) ← readValue limit s
  let (attributes, s) ← readAttributes limit s.length s
  if value.isNone && attributes.isEmpty then .error ⟨.emptyMessage id, s⟩
  else .ok (⟨id, value, attributes, none⟩, s)

def readTerm (limit : Nat) (s : List Char) : Except Failure (Term × List Char) := do
  let (id, s) ← identifier s
  let s ← expect '=' (skipSpaces s)
  match ← readValue limit s with
  | (none, s) => .error ⟨.emptyTerm id, s⟩
  | (some value, s) =>
    let (attributes, s) ← readAttributes limit s.length s
    .ok (⟨id, value, attributes, none⟩, s)

/-- The text of a comment line after its hash signs, and what follows the line. -/
def commentLine : List Char → List Char × List Char
  | ' ' :: r => (r.takeWhile (· != '\n'), r.dropWhile (· != '\n'))
  | s => ([], s)

/-- What follows `level` hash signs, if they make up a comment line. -/
def commentStart (level : Nat) (s : List Char) : Option (List Char) :=
  let r := s.drop level
  if s.take level = List.replicate level '#' ∧ r.head?.all isSpaceOrNewline then some r else none

/-- The lines of a comment, at most `count` after the first, from after its first hash signs. -/
def commentLines (level : Nat) : Nat → List Char → List (List Char) × List Char
  | 0, s =>
    let (line, r) := commentLine s
    ([line], r)
  | count + 1, s =>
    let (line, r) := commentLine s
    match r with
    | '\n' :: next =>
      match commentStart level next with
      | some next =>
        let (lines, r) := commentLines level count next
        (line :: lines, r)
      | none => ([line], r)
    | _ => ([line], r)

def CommentLevel.ofHashes? : Nat → Option CommentLevel
  | 1 => some .standalone
  | 2 => some .group
  | 3 => some .resource
  | _ => none

def readComment (s : List Char) : Except Failure (Entry × List Char) :=
  let hashes := (s.takeWhile (· == '#')).length
  match CommentLevel.ofHashes? hashes with
  | none => .error ⟨.commentLevel, s⟩
  | some level =>
    let r := s.drop hashes
    if r.head?.all isSpaceOrNewline then
      let (lines, r) := commentLines hashes r.length r
      .ok (.comment level (String.ofList (Text.join ['\n'] lines)), r)
    else .error ⟨.character ' ', r⟩

/-- An entry has to end with its line. -/
def endLine (entry : Entry) : List Char → Except Failure (Entry × List Char)
  | [] => .ok (entry, [])
  | '\n' :: r => .ok (entry, r)
  | s => .error ⟨.lineEnd, s⟩

def readEntry (limit : Nat) (s : List Char) : Except Failure (Entry × List Char) :=
  match s with
  | '#' :: _ => do
    let (entry, r) ← readComment s
    endLine entry r
  | '-' :: r => do
    let (term, r) ← readTerm limit r
    endLine (.term term) r
  | _ =>
    if s.head?.any isLetter then do
      let (message, r) ← readMessage limit s
      endLine (.message message) r
    else .error ⟨.entryStart, s⟩

/-- Drops the rest of the line, and further lines up to one that could begin an entry. -/
def dropJunk : List Char → List Char
  | [] => []
  | c :: r => if c = '\n' && r.head?.any isEntryStart then r else dropJunk r

/-- An entry, the text it was read from, and the blank lines after it. -/
structure Block where
  entry : Entry
  span : List Char
  blank : List Char
  deriving DecidableEq

/-- The block at the front of a text that ends `total` characters after the start of the source. -/
def readBlock (limit total : Nat) (s : List Char) : Block × List Char :=
  let (entry, r) := match readEntry limit s with
    | .ok (entry, r) => (entry, r)
    | .error failure =>
      let r := dropJunk s
      (.junk ⟨String.ofList (takenFrom s r), [⟨failure.cause, total - failure.rest.length⟩]⟩, r)
  let next := dropBlankLines r
  (⟨entry, takenFrom s r, takenFrom r next⟩, next)

def readBlocks (limit total : Nat) : Nat → List Char → List Block
  | _, [] => []
  | 0, _ :: _ => []
  | count + 1, c :: r =>
    let (block, s) := readBlock limit total (c :: r)
    block :: readBlocks limit total count s

/-- The blocks of a text without carriage returns before line feeds. -/
def blocks (s : List Char) : List Block :=
  readBlocks (4 * (s.length + 1)) s.length s.length (dropBlankLines s)

/-- A single-hash comment on the line before a message or term is attached to it. -/
def attachComments : List Block → List Entry
  | [] => []
  | ⟨.comment .standalone content, _, blank⟩ :: rest =>
    match Text.newlines blank, rest with
    | 0, ⟨.message m, _, _⟩ :: more =>
      .message { m with comment := some content } :: attachComments more
    | 0, ⟨.term t, _, _⟩ :: more =>
      .term { t with comment := some content } :: attachComments more
    | _, rest => .comment .standalone content :: attachComments rest
  | block :: rest => block.entry :: attachComments rest

def Resource.parse (source : String) : Resource :=
  ⟨attachComments (blocks (Text.normalizeNewlines source.toList))⟩

/-- Reads Fluent source, or fails with the first reason for junk in it. -/
def Resource.parse? (source : String) : Except Diagnostic Resource :=
  let resource := Resource.parse source
  match resource.junk.findSome? (·.diagnostics.head?) with
  | some d => .error d
  | none => .ok resource

end Fluent
end FluentMigration
