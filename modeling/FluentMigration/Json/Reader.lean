import FluentMigration.Json.Basic
/-!
The reader of JSON texts.
-/

namespace FluentMigration
namespace Json

def isBlank (c : Char) : Bool := c == ' ' || c == '\n' || c == '\t' || c == '\r'

def skipBlanks (s : List Char) : List Char := s.dropWhile isBlank

/-- A part of a string: a character, or a 16-bit unit given by its number. -/
inductive Piece where
  | char (c : Char)
  | unit (n : Nat)

def escaped? : Char → Option Char
  | '"' => some '"'
  | '\\' => some '\\'
  | '/' => some '/'
  | 'b' => some '\x08'
  | 'f' => some '\x0c'
  | 'n' => some '\n'
  | 'r' => some '\r'
  | 't' => some '\t'
  | _ => none

def pieces : List Char → Option (List Piece × List Char)
  | [] => none
  | '"' :: r => some ([], r)
  | '\\' :: 'u' :: a :: b :: c :: d :: r =>
    if [a, b, c, d].all Text.isHex then
      (pieces r).map fun (ps, rest) => (.unit (Text.hexValue [a, b, c, d]) :: ps, rest)
    else none
  | '\\' :: c :: r =>
    match escaped? c with
    | some x => (pieces r).map fun (ps, rest) => (.char x :: ps, rest)
    | none => none
  | c :: r =>
    if c.toNat < 0x20 then none else (pieces r).map fun (ps, rest) => (.char c :: ps, rest)

/-- The characters of pieces; surrogates have to come in pairs. -/
def joinPieces? : List Piece → Option (List Char)
  | [] => some []
  | .char c :: r => (joinPieces? r).map (c :: ·)
  | .unit n :: .unit m :: r =>
    if 0xD800 ≤ n && n ≤ 0xDBFF then
      if 0xDC00 ≤ m && m ≤ 0xDFFF then
        (joinPieces? r).map (Char.ofNat (0x10000 + 0x400 * (n - 0xD800) + (m - 0xDC00)) :: ·)
      else none
    else match Text.char? n with
      | some c => (joinPieces? (.unit m :: r)).map (c :: ·)
      | none => none
  | .unit n :: r =>
    match Text.char? n with
    | some c => (joinPieces? r).map (c :: ·)
    | none => none

/-- A string after its opening quote, as far as it is one, and the rest. -/
def readString (s : List Char) : Option (Option String × List Char) :=
  (pieces s).map fun (ps, rest) => ((joinPieces? ps).map String.ofList, rest)

def digits? (s : List Char) : Option (List Char × List Char) :=
  if s.head?.any Char.isDigit then some (s.takeWhile Char.isDigit, s.dropWhile Char.isDigit)
  else none

/-- The digits before a point; nothing can follow a zero in front. -/
def whole? (s : List Char) : Option (List Char × List Char) :=
  match digits? s with
  | some ('0' :: _ :: _, _) => none
  | other => other

def places? : List Char → Option (List Char × List Char)
  | '.' :: r => digits? r
  | s => some ([], s)

def exponent? : List Char → Option (Option (Bool × List Char) × List Char)
  | c :: r =>
    if c = 'e' || c = 'E' then
      let (negative, r) := match r with
        | '-' :: r => (true, r)
        | '+' :: r => (false, r)
        | r => (false, r)
      (digits? r).map fun (ds, rest) => (some (negative, ds), rest)
    else some (none, c :: r)
  | [] => some (none, [])

def readNumber (s : List Char) : Option (Numeral × List Char) := do
  let (negative, s) := match s with
    | '-' :: r => (true, r)
    | s => (false, s)
  let (whole, s) ← whole? s
  let (places, s) ← places? s
  let (exponent, s) ← exponent? s
  some (⟨negative, whole, places, exponent⟩, s)

def readWord (word : String) (value : Json) (s : List Char) : Option (Json × List Char) :=
  if word.toList.isPrefixOf s then some (value, s.drop word.length) else none

mutual

def readValue : Nat → List Char → Option (Json × List Char)
  | n + 1, c :: r =>
    if c = '[' then
      match skipBlanks r with
      | ']' :: r => some (.array [], r)
      | r => (readItems n r).map fun (items, rest) => (.array items, rest)
    else if c = '\x7b' then
      match skipBlanks r with
      | '\x7d' :: r => some (.object [], r)
      | r => (readMembers n r).map fun (members, rest) =>
        (match members.mapM fun (name, value) => name.map (·, value) with
          | some members => .object members
          | none => .illFormed, rest)
    else if c = '"' then
      (readString r).map fun (text, rest) => ((text.map string).getD .illFormed, rest)
    else if c = 'n' then readWord "null" .null (c :: r)
    else if c = 't' then readWord "true" (.boolean true) (c :: r)
    else if c = 'f' then readWord "false" (.boolean false) (c :: r)
    else (readNumber (c :: r)).map fun (value, rest) => (.number value, rest)
  | _, _ => none

def readItems : Nat → List Char → Option (List Json × List Char)
  | 0, _ => none
  | n + 1, s => do
    let (value, r) ← readValue n s
    match skipBlanks r with
    | ']' :: r => some ([value], r)
    | ',' :: r =>
      let (values, r) ← readItems n (skipBlanks r)
      some (value :: values, r)
    | _ => none

def readMembers : Nat → List Char → Option (List (Option String × Json) × List Char)
  | 0, _ => none
  | n + 1, s => do
    match s with
    | '"' :: r =>
      let (name, r) ← readString r
      match skipBlanks r with
      | ':' :: r =>
        let (value, r) ← readValue n (skipBlanks r)
        match skipBlanks r with
        | '\x7d' :: r => some ([(name, value)], r)
        | ',' :: r =>
          let (members, r) ← readMembers n (skipBlanks r)
          some ((name, value) :: members, r)
        | _ => none
      | _ => none
    | _ => none

end

/-- The value that a text is written for, with blanks around it. -/
def parse? (text : String) : Option Json :=
  let s := skipBlanks text.toList
  match readValue (2 * s.length + 1) s with
  | some (value, rest) => if (skipBlanks rest).isEmpty then some value else none
  | none => none

end Json
end FluentMigration
