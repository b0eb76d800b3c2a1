import FluentMigration.Legacy.Basic
import FluentMigration.Text.Basic
import FluentMigration.Text.Number
/-!
The `.dtd` format: entity declarations with values in either kind of quotes, and comments. All other
text is passed over. Character references and the predefined entities are resolved once; a
reference to anything else stays as it is written.
-/

namespace FluentMigration
namespace Legacy
namespace Dtd

def skipBlanks (s : List Char) : List Char := s.dropWhile Text.isBlank

def blanks? : List Char → Option (List Char)
  | c :: r => if Text.isBlank c then some (skipBlanks r) else none
  | [] => none

def after? (word s : List Char) : Option (List Char) :=
  if word.isPrefixOf s then some (s.drop word.length) else none

def afterComment? : List Char → Option (List Char)
  | [] => none
  | c :: r =>
    match after? ['-', '-', '>'] (c :: r) with
    | some rest => some rest
    | none => afterComment? r

def isKeyChar (c : Char) : Bool :=
  !Text.isBlank c && c != '"' && c != '\'' && c != '>'

def value? : List Char → Option (List Char × List Char)
  | '"' :: r => Text.cut '"' r
  | '\'' :: r => Text.cut '\'' r
  | _ => none

/-- A declaration after its opening: key, value as written, and what follows it. -/
def declaration? (s : List Char) : Option (List Char × List Char × List Char) := do
  let s ← blanks? s
  let key := s.takeWhile isKeyChar
  if key.isEmpty then none
  let s ← blanks? (s.dropWhile isKeyChar)
  let (value, s) ← value? s
  match skipBlanks s with
  | '>' :: rest => some (key, value, rest)
  | _ => none

inductive Markup where
  | comment (rest : List Char)
  | entity (key value rest : List Char)

def Markup.rest : Markup → List Char
  | comment rest => rest
  | entity _ _ rest => rest

def markup? (s : List Char) : Option Markup :=
  match after? "<!--".toList s >>= afterComment? with
  | some rest => some (.comment rest)
  | none => do
    let (key, value, rest) ← after? "<!ENTITY".toList s >>= declaration?
    some (.entity key value rest)

def predefined? (name : List Char) : Option Char :=
  [("amp", '&'), ("lt", '<'), ("gt", '>'), ("quot", '"'), ("apos", '\''), ("nbsp", '\u00a0')]
    |>.lookup (String.ofList name)

/-- The body of a reference and what it stands for, from behind its ampersand. -/
def reference? : List Char → Option (List Char × Option Char)
  | '#' :: 'x' :: r => numeric ['#', 'x'] (r.takeWhile Text.isHex) (r.dropWhile Text.isHex)
      (Text.char? ∘ Text.hexValue)
  | '#' :: r => numeric ['#'] (r.takeWhile Char.isDigit) (r.dropWhile Char.isDigit)
      (Text.char? ∘ Text.decimalValue)
  | c :: r =>
    if c.isAlpha then
      numeric [] (c :: r.takeWhile Char.isAlphanum) (r.dropWhile Char.isAlphanum) predefined?
    else none
  | [] => none
where
  numeric (mark word rest : List Char) (meaning : List Char → Option Char) :
      Option (List Char × Option Char) :=
    if word.isEmpty || rest.head? != some ';' then none
    else some (mark ++ word ++ [';'], meaning word)

/-- Resolves the references of a value; the first `skip` characters belong to one already
resolved. -/
def resolveFrom (skip : Nat) : List Char → List Char
  | [] => []
  | c :: r =>
    match skip with
    | skip + 1 => resolveFrom skip r
    | 0 =>
      match (if c = '&' then reference? r else none) with
      | some (body, some meaning) => meaning :: resolveFrom body.length r
      | _ => c :: resolveFrom 0 r

def resolve (value : List Char) : List Char := resolveFrom 0 value

/-- The entries of a text that begins on the given line, its first `skip` characters belonging to
markup already read. -/
def entriesFrom (line skip : Nat) : List Char → List Entry
  | [] => []
  | c :: r =>
    let next := if c = '\n' then line + 1 else line
    match skip with
    | skip + 1 => entriesFrom next skip r
    | 0 =>
      match markup? (c :: r) with
      | none => entriesFrom next 0 r
      | some m =>
        let skip := r.length - m.rest.length
        match m with
        | .comment _ => entriesFrom next skip r
        | .entity key value _ =>
          ⟨String.ofList key, String.ofList (resolve value), line,
            line + Text.newlines ((c :: r).take (skip + 1)), true⟩ :: entriesFrom next skip r

def parse (s : List Char) : List Entry := entriesFrom 1 0 s

end Dtd
end Legacy
end FluentMigration
