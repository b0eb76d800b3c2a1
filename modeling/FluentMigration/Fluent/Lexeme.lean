import FluentMigration.Fluent.ParseError
import FluentMigration.Text.Number
/-!
The lexical layer of Fluent: character classes, and scanners that take a word from the front of a
text and return what follows it. A scanner fails with the cause and the text it stopped at. An
identifier in front of anything that cannot go on with it is read whole (`identifier_append`).
-/

namespace FluentMigration
namespace Fluent

/-- Why reading stopped, and the text that was still to be read there. -/
structure Failure where
  cause : ParseError
  rest : List Char
  deriving DecidableEq

def isLetter (c : Char) : Bool := c.isAlpha

def isDigit (c : Char) : Bool := c.isDigit

def isIdentifierChar (c : Char) : Bool := c.isAlphanum || c == '_' || c == '-'

/-- Whether an identifier may name a function: capitals, digits, `_` and `-`, a capital first. -/
def isCallee (id : List Char) : Bool :=
  id.head?.any Char.isUpper &&
    id.all fun c => c.isUpper || c.isDigit || c == '_' || c == '-'

def isEntryStart (c : Char) : Bool := isLetter c || c == '-' || c == '#'

def isTextChar (c : Char) : Bool := c != '\x7b' && c != '\x7d' && c != '\n'

def isSpace (c : Char) : Bool := c == ' '

def isSpaceOrNewline (c : Char) : Bool := c == ' ' || c == '\n'

def skipSpaces (s : List Char) : List Char := s.dropWhile isSpace

def skipBlank (s : List Char) : List Char := s.dropWhile isSpaceOrNewline

/-- Drops whole lines of spaces, and spaces at the end of the text. `start` is where the current
line began. -/
def dropBlankLinesFrom (start : List Char) : List Char → List Char
  | [] => []
  | c :: r =>
    if c = ' ' then dropBlankLinesFrom start r
    else if c = '\n' then dropBlankLinesFrom r r
    else start

def dropBlankLines (s : List Char) : List Char := dropBlankLinesFrom s s

def takenFrom (s rest : List Char) : List Char := s.take (s.length - rest.length)

theorem takenFrom_append {a rest : List Char} : takenFrom (a ++ rest) rest = a := by
  simp [takenFrom]

theorem takenFrom_append_of_suffix {s rest : List Char} (h : rest <:+ s) :
    takenFrom s rest ++ rest = s := by
  obtain ⟨a, rfl⟩ := h
  rw [takenFrom_append]

def expect (c : Char) : List Char → Except Failure (List Char)
  | [] => .error ⟨.character c, []⟩
  | x :: r => if x = c then .ok r else .error ⟨.character c, x :: r⟩

def identifier (s : List Char) : Except Failure (String × List Char) :=
  if s.head?.any isLetter then
    .ok (String.ofList (s.takeWhile isIdentifierChar), s.dropWhile isIdentifierChar)
  else .error ⟨.letter, s⟩

/-- The characters of a class at the front of a text, up to where the class ends. -/
theorem takeWhile_append_boundary {p : Char → Bool} {word rest : List Char}
    (hword : ∀ c ∈ word, p c = true) (hrest : rest.head?.all (!p ·) = true) :
    (word ++ rest).takeWhile p = word := by
  rw [List.takeWhile_append_of_pos hword]
  cases rest with
  | nil => simp
  | cons c r => simp_all

theorem dropWhile_append_boundary {p : Char → Bool} {word rest : List Char}
    (hword : ∀ c ∈ word, p c = true) (hrest : rest.head?.all (!p ·) = true) :
    (word ++ rest).dropWhile p = rest := by
  rw [List.dropWhile_append_of_pos hword]
  cases rest with
  | nil => rfl
  | cons c r => simp_all

def isIdentifier (word : List Char) : Bool := word.head?.any isLetter && word.all isIdentifierChar

theorem identifier_append {word rest : List Char} (hword : isIdentifier word = true)
    (hrest : rest.head?.all (!isIdentifierChar ·) = true) :
    identifier (word ++ rest) = .ok (String.ofList word, rest) := by
  obtain ⟨hhead, hall⟩ := Bool.and_eq_true_iff.1 hword
  have hchars : ∀ c ∈ word, isIdentifierChar c = true := List.all_eq_true.1 hall
  cases word with
  | nil => simp at hhead
  | cons c r =>
    have hfirst : isLetter c = true := by simpa using hhead
    rw [identifier, takeWhile_append_boundary hchars hrest, dropWhile_append_boundary hchars hrest]
    simp [hfirst]

def digits (s : List Char) : Except Failure (List Char × List Char) :=
  if s.head?.any isDigit then .ok (s.takeWhile isDigit, s.dropWhile isDigit)
  else .error ⟨.digit, s⟩

/-- The fraction of a number, if a point and a digit follow. -/
def fraction : List Char → List Char × List Char
  | '.' :: r =>
    if r.head?.any isDigit then ('.' :: r.takeWhile isDigit, r.dropWhile isDigit)
    else ([], '.' :: r)
  | s => ([], s)

def number (s : List Char) : Except Failure (String × List Char) := do
  let (sign, r) := match s with
    | '-' :: r => (['-'], r)
    | r => ([], r)
  let (whole, r) ← digits r
  let (part, r) := fraction r
  .ok (String.ofList (sign ++ whole ++ part), r)

/-- The string literal after its opening quote, escapes as written. The first argument counts the
hexadecimal digits still owed to an escape. -/
def stringBody : Nat → List Char → Except Failure (List Char × List Char)
  | _ + 1, [] => .error ⟨.unicodeEscape, []⟩
  | n + 1, c :: r =>
    if Text.isHex c then (stringBody n r).map fun (raw, r) => (c :: raw, r)
    else .error ⟨.unicodeEscape, c :: r⟩
  | 0, [] => .error ⟨.openString, []⟩
  | 0, '"' :: r => .ok ([], r)
  | 0, '\n' :: r => .error ⟨.openString, '\n' :: r⟩
  | 0, '\\' :: [] => .error ⟨.escape, []⟩
  | 0, '\\' :: c :: r =>
    if c = '\\' ∨ c = '"' then (stringBody 0 r).map fun (raw, r) => ('\\' :: c :: raw, r)
    else if c = 'u' then (stringBody 4 r).map fun (raw, r) => ('\\' :: c :: raw, r)
    else if c = 'U' then (stringBody 6 r).map fun (raw, r) => ('\\' :: c :: raw, r)
    else .error ⟨.escape, c :: r⟩
  | 0, c :: r => (stringBody 0 r).map fun (raw, r) => (c :: raw, r)

def stringLiteral (s : List Char) : Except Failure (String × List Char) := do
  let r ← expect '"' s
  let (raw, r) ← stringBody 0 r
  .ok (String.ofList raw, r)

def accessor : List Char → Except Failure (Option String × List Char)
  | '.' :: r => do
    let (id, r) ← identifier r
    .ok (some id, r)
  | s => .ok (none, s)

structure Continuation where
  newlines : Nat
  width : Nat
  rest : List Char
  deriving DecidableEq

/-- What a line may not begin with to carry a pattern on. -/
def isLineSyntax (c : Char) : Bool := c == '.' || c == '[' || c == '*' || c == '\x7d'

/-- After `newlines` line breaks and `width` spaces. -/
def continuationFrom (newlines width : Nat) : List Char → Option Continuation
  | [] => none
  | c :: r =>
    if c = ' ' then continuationFrom newlines (width + 1) r
    else if c = '\n' then continuationFrom (newlines + 1) 0 r
    else if isLineSyntax c || width == 0 then none
    else some ⟨newlines, width, c :: r⟩

/-- The line after the line break at the front, blank lines skipped, if it carries a pattern on. -/
def continuation : List Char → Option Continuation
  | '\n' :: r => continuationFrom 1 0 r
  | _ => none

end Fluent
end FluentMigration
