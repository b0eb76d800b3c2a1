import FluentMigration.Placeholder.Split
/-!
Printf specifiers: `%`, an optional position `n$`, width, precision and the kind. Numbered, a
specifier is `%n$` and its kind; one without a position takes the next number, and width and
precision are dropped. `%%` is a percent sign.
-/

namespace FluentMigration
namespace Placeholder

def isKind (c : Char) : Bool := "duxXosScpfg@".toList.contains c

/-- A position: a number without leading zero and a dollar sign. -/
def position? (s : List Char) : Option (List Char × List Char) :=
  match s with
  | c :: _ =>
    if c.isDigit && c != '0' then
      match s.dropWhile Char.isDigit with
      | '$' :: r => some (s.takeWhile Char.isDigit, r)
      | _ => none
    else none
  | [] => none

def skipCount : List Char → List Char
  | '*' :: r => r
  | s => s.dropWhile Char.isDigit

/-- Skips a point and the count after it, if there is a point. -/
def skipPrecision : List Char → List Char
  | '.' :: r => skipCount r
  | s => s

/-- A specifier after its percent sign: position, kind, and what follows it. -/
def specifier? (s : List Char) : Option (Option (List Char) × Char × List Char) :=
  let (number, r) := match position? s with
    | some (number, r) => (some number, r)
    | none => (none, s)
  match skipPrecision (skipCount r) with
  | c :: rest => if isKind c then some (number, c, rest) else none
  | [] => none

inductive Token where
  | text (value : List Char)
  | percent
  /-- A specifier with its number, its kind, and how it was written. -/
  | specifier (number : List Char) (kind : Char) (written : List Char)
  deriving DecidableEq

def consToken (c : Char) : List Token → List Token
  | .text value :: rest => .text (c :: value) :: rest
  | tokens => .text [c] :: tokens

/-- The tokens of a text, between any two of which stands a text. `next` is the number of the next
specifier without a position; the first `skip` characters belong to a specifier already read. -/
def tokensFrom (next skip : Nat) : List Char → List Token
  | [] => [.text []]
  | c :: r =>
    match skip with
    | skip + 1 => tokensFrom next skip r
    | 0 =>
      if c = '%' then
        if r.head? = some '%' then .text [] :: .percent :: tokensFrom next 1 r
        else
          match specifier? r with
          | some (number, kind, rest) =>
            let length := r.length - rest.length
            let written := '%' :: r.take length
            match number with
            | some number => .text [] :: .specifier number kind written :: tokensFrom next length r
            | none =>
              .text [] :: .specifier (toString next).toList kind written ::
                tokensFrom (next + 1) length r
          | none => consToken c (tokensFrom next 0 r)
      else consToken c (tokensFrom next 0 r)

def tokens (s : List Char) : List Token := tokensFrom 1 0 s

/-- A specifier in its numbered form. -/
def numbered (number : List Char) (kind : Char) : List Char := '%' :: number ++ ['$', kind]

def Token.normal : Token → List Char
  | .text value => value
  | .percent => ['%']
  | .specifier number kind _ => numbered number kind

/-- Every specifier in its numbered form, and `%%` as a percent sign. -/
def normalizePrintf (s : List Char) : List Char := (tokens s).flatMap Token.normal

/-- The pieces of a token: a specifier without a key stays as it was written. -/
def Token.pieces (keys : List (List Char)) : Token → List Piece
  | .text value => split keys value
  | .percent => [.text ['%']]
  | .specifier number kind written =>
    match keys.idxOf? (numbered number kind) with
    | some index => [.placeholder index]
    | none => [.text written]

/-- Splits a text whose specifiers are looked up in their numbered form. -/
def splitPrintf (keys : List (List Char)) (s : List Char) : List Piece :=
  (tokens s).flatMap (Token.pieces keys)

/-- Keys in their numbered form; of those that become equal the first is kept. -/
def normalizeKeys (replacements : List (String × α)) : List (String × α) :=
  go [] replacements
where
  go (seen : List String) : List (String × α) → List (String × α)
    | [] => []
    | (key, value) :: rest =>
      let key := String.ofList (normalizePrintf key.toList)
      if key ∈ seen then go seen rest else (key, value) :: go (key :: seen) rest

end Placeholder
end FluentMigration
