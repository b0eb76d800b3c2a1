import FluentMigration.Legacy.Basic
import FluentMigration.Text.Number
/-!
The `.properties` format. A key ends at the first unescaped `=`, `:` or blank. A line that ends in
an odd number of backslashes goes on with the next line, whose leading blanks are dropped. Escapes
are `\uXXXX` (one UTF-16 unit, a pair for a character above U+FFFF), `\n`, `\t`, `\r` and `\f`; any
other escaped character stands for itself.
-/

namespace FluentMigration
namespace Legacy
namespace Properties

def isBlank (c : Char) : Bool := c == ' ' || c == '\t' || c == '\x0c'

def skipBlanks (s : List Char) : List Char := s.dropWhile isBlank

def continues (line : List Char) : Bool :=
  (line.reverse.takeWhile (· == '\\')).length % 2 == 1

def isIgnored (line : List Char) : Bool :=
  match skipBlanks line with
  | [] => true
  | c :: _ => c == '#' || c == '!'

/-- The value from behind a blank that ended its key: one more separator may follow. -/
def afterBlank (s : List Char) : List Char :=
  match skipBlanks s with
  | c :: r => if c == '=' || c == ':' then skipBlanks r else c :: r
  | [] => []

/-- The key and the value of a logical line, escapes not resolved. -/
def splitKey : List Char → List Char × List Char
  | [] => ([], [])
  | ['\\'] => (['\\'], [])
  | '\\' :: c :: r =>
    let (key, value) := splitKey r
    ('\\' :: c :: key, value)
  | c :: r =>
    if c == '=' || c == ':' then ([], skipBlanks r)
    else if isBlank c then ([], afterBlank r)
    else
      let (key, value) := splitKey r
      (c :: key, value)

def unitDigits (s : List Char) : List Char := (s.take 4).takeWhile Text.isHex

def isHighSurrogate (unit : Nat) : Bool := 0xD800 ≤ unit && unit < 0xDC00

def isLowSurrogate (unit : Nat) : Bool := 0xDC00 ≤ unit && unit < 0xE000

def pairedChar (high low : Nat) : Char :=
  Char.ofNat (0x10000 + (high - 0xD800) * 0x400 + (low - 0xDC00))

/-- The digits of the escaped low surrogate at the front of `s`, if `high` asks for one. -/
def lowDigits? (high : Nat) : List Char → Option (List Char)
  | '\\' :: 'u' :: r =>
    let digits := unitDigits r
    if isHighSurrogate high && !digits.isEmpty && isLowSurrogate (Text.hexValue digits) then
      some digits
    else none
  | _ => none

/-- What an escape other than `\u` stands for. -/
def escaped (c : Char) : Char :=
  if c = 'n' then '\n' else if c = 't' then '\t' else if c = 'r' then '\r'
  else if c = 'f' then '\x0c' else c

/-- Resolves the escapes; a backslash at the very end is dropped. -/
def unescape : List Char → List Char
  | [] => []
  | ['\\'] => []
  | '\\' :: 'u' :: r =>
    let digits := unitDigits r
    if digits.isEmpty then 'u' :: unescape r
    else
      let unit := Text.hexValue digits
      let rest := r.drop digits.length
      match lowDigits? unit rest with
      | some low =>
        pairedChar unit (Text.hexValue low) :: unescape (rest.drop (2 + low.length))
      | none => (Text.char? unit).getD '\uFFFD' :: unescape rest
  | '\\' :: c :: r => escaped c :: unescape r
  | c :: r => c :: unescape r
termination_by s => s.length
decreasing_by all_goals simp only [List.length_cons, List.length_drop]; omega

def entry (line endLine : Nat) (logical : List Char) : Entry :=
  let (key, value) := splitKey logical
  ⟨String.ofList (unescape key), String.ofList (unescape value), line, endLine, true⟩

/-- The entries of lines numbered from `number`. `pending` is the logical line that the first of
them goes on, with the number of the line it began on. -/
def entriesFrom (number : Nat) (pending : Option (Nat × List Char)) : List (List Char) → List Entry
  | [] =>
    match pending with
    | none => []
    | some (start, logical) => [entry start (number - 1) logical]
  | line :: rest =>
    let (start, logical) := match pending with
      | none => (number, skipBlanks line)
      | some (start, logical) => (start, logical ++ skipBlanks line)
    if pending.isNone && isIgnored line then entriesFrom (number + 1) none rest
    else if continues logical then entriesFrom (number + 1) (some (start, logical.dropLast)) rest
    else entry start number logical :: entriesFrom (number + 1) none rest

def parse (s : List Char) : List Entry :=
  entriesFrom 1 none ((Text.splitOn '\n' s).map Text.dropReturn)

end Properties
end Legacy
end FluentMigration
