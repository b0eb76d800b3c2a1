import FluentMigration.Json.Basic
/-!
JSON texts with one item a line, indented by two spaces for every bracket they are in.
-/

namespace FluentMigration
namespace Json

/-- A character as it stands in a string: quotes, backslashes and control characters are escaped. -/
def escapeChar (c : Char) : List Char :=
  if c = '"' then ['\\', '"']
  else if c = '\\' then ['\\', '\\']
  else if c = '\x08' then ['\\', 'b']
  else if c = '\x0c' then ['\\', 'f']
  else if c = '\n' then ['\\', 'n']
  else if c = '\r' then ['\\', 'r']
  else if c = '\t' then ['\\', 't']
  else if c.toNat < 0x20 then
    let digits := Nat.toDigits 16 c.toNat
    ['\\', 'u'] ++ List.replicate (4 - digits.length) '0' ++ digits
  else [c]

def quote (s : String) : String :=
  "\"" ++ String.ofList (s.toList.flatMap escapeChar) ++ "\""

def Numeral.text (n : Numeral) : String :=
  let sign := fun negative => if negative then ['-'] else []
  let places := if n.places.isEmpty then [] else '.' :: n.places
  let exponent := match n.exponent with
    | none => []
    | some (negative, ds) => 'e' :: sign negative ++ ds
  String.ofList (sign n.negative ++ n.whole ++ places ++ exponent)

def bracketed (opening closing : String) (depth : Nat) (items : List String) : String :=
  if items.isEmpty then opening ++ closing
  else
    let line := fun depth => "\n" ++ String.ofList (List.replicate (2 * depth) ' ')
    let inner := line (depth + 1)
    opening ++ inner ++ ("," ++ inner).intercalate items ++ line depth ++ closing

mutual

def render (depth : Nat) : Json → String
  | .null | .illFormed => "null"
  | .boolean value => if value then "true" else "false"
  | .number value => Numeral.text value
  | .string value => quote value
  | .array items => bracketed "[" "]" depth (renderItems (depth + 1) items)
  | .object members => bracketed "\x7b" "\x7d" depth (renderMembers (depth + 1) members)
termination_by structural x => x

def renderItems (depth : Nat) : List Json → List String
  | [] => []
  | item :: rest => item.render depth :: renderItems depth rest
termination_by structural x => x

def renderMembers (depth : Nat) : List (String × Json) → List String
  | [] => []
  | (name, value) :: rest => (quote name ++ ": " ++ value.render depth) :: renderMembers depth rest
termination_by structural x => x

end

def text (value : Json) : String := value.render 0

end Json
end FluentMigration
