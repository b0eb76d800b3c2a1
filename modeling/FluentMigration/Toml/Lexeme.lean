import FluentMigration.Text.Number
import FluentMigration.Toml.Value
/-!
The lexical layer of TOML: blanks, keys, strings, numbers and times. A scanner takes a word from the
front of a text and returns what follows it, or fails with the cause and the text it stopped at.
-/

namespace FluentMigration
namespace Toml

/-- Why reading stopped, and the text that was still to be read there. -/
structure Failure where
  reason : Malformation
  rest : List Char

def isBlank (c : Char) : Bool := c == ' ' || c == '\t'

/-- A character that is not a control character; tabs are allowed. -/
def isVisible (c : Char) : Bool := c == '\t' || 0x20 ≤ c.toNat && c.toNat != 0x7F

def isKeyChar (c : Char) : Bool := c.isAlphanum || c == '_' || c == '-'

def skipBlanks (s : List Char) : List Char := s.dropWhile isBlank

def newline? : List Char → Option (List Char)
  | '\n' :: r => some r
  | '\r' :: '\n' :: r => some r
  | _ => none

def skipBlankLines : List Char → List Char
  | '\r' :: '\n' :: r => skipBlankLines r
  | c :: r => if isBlank c || c == '\n' then skipBlankLines r else c :: r
  | [] => []

/-- Drops a comment up to the end of its line or a control character. -/
def skipComment (s : List Char) : List Char :=
  if s.head? = some '#' then s.dropWhile isVisible else s

/-- Drops blanks, line endings and comments; `inComment` tells where the text begins. -/
def skipTriviaFrom (inComment : Bool) : List Char → List Char
  | '\r' :: '\n' :: r => skipTriviaFrom false r
  | c :: r =>
    if c == '\n' then skipTriviaFrom false r
    else if inComment && isVisible c then skipTriviaFrom true r
    else if isBlank c then skipTriviaFrom false r
    else if c == '#' then skipTriviaFrom true r
    else c :: r
  | [] => []

def skipTrivia (s : List Char) : List Char := skipTriviaFrom false s

/-- The end of a line: blanks and a comment, then a line ending or the end of the text. -/
def endLine (s : List Char) : Except Failure (List Char) :=
  let s := skipComment (skipBlanks s)
  match s, newline? s with
  | [], _ => .ok []
  | _, some r => .ok r
  | _, none => .error ⟨.ofExpected ["newline", "`#`"], s⟩

def codePoint (count : Nat) (s : List Char) : Except Failure (Char × List Char) :=
  let part := "unicode " ++ toString count ++ "-digit hex code"
  let digits := (s.take count).takeWhile Text.isHex
  if digits.length = count then
    match Text.char? (Text.hexValue digits) with
    | some c => .ok (c, s.drop count)
    | none => .error ⟨⟨some part, [], some .outOfRange⟩, s⟩
  else .error ⟨.ofPart part, s⟩

/-- What a backslash stands for with what follows it. -/
def escaped : List Char → Except Failure (Char × List Char)
  | 'b' :: r => .ok ('\x08', r)
  | 'f' :: r => .ok ('\x0c', r)
  | 'n' :: r => .ok ('\n', r)
  | 'r' :: r => .ok ('\r', r)
  | 't' :: r => .ok ('\t', r)
  | '\\' :: r => .ok ('\\', r)
  | '"' :: r => .ok ('"', r)
  | 'u' :: r => codePoint 4 r
  | 'U' :: r => codePoint 8 r
  | s => .error ⟨⟨some "escape sequence",
      ["`b`", "`f`", "`n`", "`r`", "`t`", "`u`", "`U`", "`\\`", "`\"`"], none⟩, s⟩

def basicRest : Nat → List Char → Except Failure (List Char × List Char)
  | n + 1, c :: r =>
    if c = '"' then .ok ([], r)
    else if c = '\\' then do
      let (x, r) ← escaped r
      let (text, r) ← basicRest n r
      .ok (x :: text, r)
    else if isVisible c then do
      let (text, r) ← basicRest n r
      .ok (c :: text, r)
    else .error ⟨.ofPart "basic string", c :: r⟩
  | _, s => .error ⟨.ofPart "basic string", s⟩

def literalRest : List Char → Except Failure (List Char × List Char)
  | c :: r =>
    if c = '\'' then .ok ([], r)
    else if isVisible c then do
      let (text, r) ← literalRest r
      .ok (c :: text, r)
    else .error ⟨.ofPart "literal string", c :: r⟩
  | [] => .error ⟨.ofPart "literal string", []⟩

/-- The rest of a string in three quotes of a kind. In double quotes, escape sequences stand for
characters and a backslash at the end of a line for nothing. Up to two quotes can stand before the
closing ones. -/
def multilineRest (quote : Char) : Nat → List Char → Except Failure (List Char × List Char)
  | n + 1, c :: r =>
    if c = quote then
      let count := min 5 ((c :: r).takeWhile (· == quote)).length
      if 3 ≤ count then .ok (List.replicate (count - 3) quote, (c :: r).drop count)
      else do
        let (text, r) ← multilineRest quote n r
        .ok (c :: text, r)
    else if c = '\\' && quote = '"' then
      match newline? (skipBlanks r) with
      | some r => multilineRest quote n (skipBlankLines r)
      | none => do
        let (x, r) ← escaped r
        let (text, r) ← multilineRest quote n r
        .ok (x :: text, r)
    else match newline? (c :: r) with
      | some r => do
        let (text, r) ← multilineRest quote n r
        .ok ('\n' :: text, r)
      | none =>
        if isVisible c then do
          let (text, r) ← multilineRest quote n r
          .ok (c :: text, r)
        else .error ⟨.ofPart (part quote), c :: r⟩
  | _, s => .error ⟨.ofPart (part quote), s⟩
where
  part (quote : Char) : String :=
    if quote = '"' then "multiline basic string" else "multiline literal string"

def multiline (quote : Char) (s : List Char) : Except Failure (List Char × List Char) :=
  multilineRest quote (s.length + 1) ((newline? s).getD s)

def quoted : List Char → Except Failure (String × List Char)
  | '"' :: '"' :: '"' :: r => named (multiline '"' r)
  | '"' :: r => named (basicRest (r.length + 1) r)
  | '\'' :: '\'' :: '\'' :: r => named (multiline '\'' r)
  | '\'' :: r => named (literalRest r)
  | s => .error ⟨⟨some "string", ["`\"`", "`'`"], none⟩, s⟩
where
  named (result : Except Failure (List Char × List Char)) : Except Failure (String × List Char) :=
    result.map fun (text, r) => (String.ofList text, r)

def simpleKey (s : List Char) : Except Failure (String × List Char) :=
  match s with
  | '"' :: r => (basicRest (r.length + 1) r).map fun (text, r) => (String.ofList text, r)
  | '\'' :: r => (literalRest r).map fun (text, r) => (String.ofList text, r)
  | _ =>
    let word := s.takeWhile isKeyChar
    if word.isEmpty then .error ⟨.ofPart "key", s⟩
    else .ok (String.ofList word, s.dropWhile isKeyChar)

/-- The parts of a key after its first one. A point that no part follows is left. -/
def keyRest : Nat → List Char → Except Failure (List String × List Char)
  | n + 1, '.' :: r =>
    let inner := skipBlanks r
    if inner.head?.any (fun c => isKeyChar c || c == '"' || c == '\'') then do
      let (name, r) ← simpleKey inner
      let (names, r) ← keyRest n (skipBlanks r)
      .ok (name :: names, r)
    else .ok ([], '.' :: r)
  | _, s => .ok ([], s)

/-- The greatest number of parts of a key, and of brackets in each other. -/
def maxDepth : Nat := 79

/-- A key: the names before the last one, and that one. Blanks around it are dropped. -/
def key (s : List Char) : Except Failure (List String × String × List Char) := do
  let start := skipBlanks s
  let (name, r) ← simpleKey start
  let (names, r) ← keyRest r.length (skipBlanks r)
  if maxDepth < names.length + 1 then .error ⟨⟨some "key", [], some .tooDeep⟩, start⟩
  else
    let all := name :: names
    .ok (all.dropLast, all.getLastD name, r)

/-- The digits after the first ones: each may have one underscore before it. -/
def moreDigits (p : Char → Bool) : List Char → Except (List Char) (List Char × List Char)
  | '_' :: c :: r =>
    if p c then do
      let (ds, r) ← moreDigits p r
      .ok (c :: ds, r)
    else .error (c :: r)
  | ['_'] => .error []
  | c :: r =>
    if p c then do
      let (ds, r) ← moreDigits p r
      .ok (c :: ds, r)
    else .ok ([], c :: r)
  | [] => .ok ([], [])

def digits (part : String) (p : Char → Bool) (s : List Char) :
    Except Failure (List Char × List Char) :=
  if s.head?.any p then
    match moreDigits p s with
    | .ok result => .ok result
    | .error rest => .error ⟨⟨some part, ["digit"], none⟩, rest⟩
  else .error ⟨⟨some part, ["digit"], none⟩, s⟩

/-- The digits of a decimal number; nothing can follow a zero in front. -/
def decimalDigits (s : List Char) : Except Failure (List Char × List Char) :=
  match s with
  | '0' :: r => .ok (['0'], r)
  | _ => digits "integer" Char.isDigit s

def minInteger : Int := -9223372036854775808

def maxInteger : Int := 9223372036854775807

def boundedInteger (value : Int) (start rest : List Char) : Except Failure (Value × List Char) :=
  if value < minInteger then .error ⟨⟨some "integer", [], some .tooSmall⟩, start⟩
  else if maxInteger < value then .error ⟨⟨some "integer", [], some .tooLarge⟩, start⟩
  else .ok (.integer value, rest)

/-- A whole number in a base, after its sign for the base. -/
def basedInteger (base : Nat) (s : List Char) : Except Failure (Value × List Char) := do
  let isBaseDigit := fun c => (Text.hexDigit? c).any (· < base)
  let (ds, r) ← digits "integer" isBaseDigit s
  let value := ds.foldl (fun n c => base * n + (Text.hexDigit? c).getD 0) 0
  boundedInteger value s r

def exponent (s : List Char) : Except Failure (Int × List Char) := do
  let (negative, r) := match s with
    | '-' :: r => (true, r)
    | '+' :: r => (false, r)
    | r => (false, r)
  let (ds, r) ← digits "floating-point number" Char.isDigit r
  let value : Int := Text.decimalValue ds
  .ok (if negative then -value else value, r)

def exponent? : List Char → Except Failure (Int × List Char)
  | 'e' :: r => exponent r
  | 'E' :: r => exponent r
  | r => .ok (0, r)

/-- A floating-point number made of its digits; one that is too great is refused. -/
def boundedFloat (negative : Bool) (ds : List Char) (e : Int) (start rest : List Char) :
    Except Failure (Value × List Char) :=
  let value := Double.ofDecimal negative (Text.decimalValue ds) e
  if value = .infinite false then .error ⟨.ofPart "floating-point number", start⟩
  else .ok (.float value, rest)

def unsigned (negative : Bool) (s : List Char) : Except Failure (Value × List Char) :=
  match s with
  | 'i' :: 'n' :: 'f' :: r => .ok (.float (.infinite negative), r)
  | 'n' :: 'a' :: 'n' :: r => .ok (.float .nan, r)
  | _ => do
    let (ds, r) ← decimalDigits s
    match r with
    | '.' :: r =>
      let (places, r) ← digits "floating-point number" Char.isDigit r
      let (e, r) ← exponent? r
      boundedFloat negative (ds ++ places) (e - places.length) s r
    | 'e' :: r =>
      let (e, r) ← exponent r
      boundedFloat negative ds e s r
    | 'E' :: r =>
      let (e, r) ← exponent r
      boundedFloat negative ds e s r
    | _ =>
      let value : Int := Text.decimalValue ds
      boundedInteger (if negative then -value else value) s r

def fixedDigits? (count : Nat) (s : List Char) : Option (Nat × List Char) :=
  let ds := s.take count
  if ds.length = count && ds.all Char.isDigit then some (Text.decimalValue ds, s.drop count)
  else none

def pair? (low high : Nat) (s : List Char) : Option (Nat × List Char) :=
  (fixedDigits? 2 s).bind fun (n, r) => if low ≤ n && n ≤ high then some (n, r) else none

def drop? (c : Char) : List Char → Option (List Char)
  | x :: r => if x = c then some r else none
  | [] => none

def timeRest? (s : List Char) : Option (List Char) := do
  let (_, s) ← pair? 0 59 s
  let s ← drop? ':' s
  let (_, s) ← pair? 0 60 s
  match s with
  | '.' :: r =>
    if r.head?.any Char.isDigit then some (r.dropWhile Char.isDigit) else some s
  | _ => some s

def hour? (s : List Char) : Option (List Char) := do
  let (_, s) ← pair? 0 23 s
  drop? ':' s

/-- The offset of a time, if there is one; `none` if it is wrong. -/
def offset? : List Char → Option (List Char)
  | 'Z' :: r => some r
  | 'z' :: r => some r
  | c :: r =>
    if c = '+' || c = '-' then do
      let r ← hour? r
      let (_, r) ← pair? 0 59 r
      some r
    else some (c :: r)
  | [] => some []

def daysOf (year month : Nat) : Nat :=
  if month = 2 then
    if year % 4 = 0 && (year % 100 != 0 || year % 400 = 0) then 29 else 28
  else if [4, 6, 9, 11].contains month then 30
  else 31

def dateRest? (year : Nat) (s : List Char) : Option (List Char) := do
  let (month, s) ← pair? 1 12 s
  let s ← drop? '-' s
  let (day, s) ← pair? 1 31 s
  if day ≤ daysOf year month then some s else none

/-- The time after a date, if there is one; `none` if it is wrong. -/
def timeOfDate? (s : List Char) : Option (List Char) :=
  match s with
  | c :: r =>
    if c = 'T' || c = 't' || c = ' ' then
      match hour? r with
      | some r => timeRest? r >>= offset?
      | none => some s
    else some s
  | [] => some []

/-- What follows a date or a time; nothing if there is none, `some none` if it is wrong. -/
def datetime? (s : List Char) : Option (Option (List Char)) :=
  match fixedDigits? 4 s with
  | some (year, '-' :: r) => some (dateRest? year r >>= timeOfDate?)
  | _ => (hour? s).map timeRest?

def number (s : List Char) : Except Failure (Value × List Char) :=
  match datetime? s with
  | some (some r) => .ok (.datetime, r)
  | some none => .error ⟨.ofPart "date-time", s⟩
  | none =>
    match s with
    | '0' :: 'x' :: r => basedInteger 16 r
    | '0' :: 'o' :: r => basedInteger 8 r
    | '0' :: 'b' :: r => basedInteger 2 r
    | '-' :: r => unsigned true r
    | '+' :: r => unsigned false r
    | _ => unsigned false s

end Toml
end FluentMigration
