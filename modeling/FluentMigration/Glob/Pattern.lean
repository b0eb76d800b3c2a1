import FluentMigration.Text.Basic
/-!
Path patterns. In a name, `?` stands for a character, `*` for any characters, `[..]` for one of a
set and `[!..]` for one outside of it; a name `**` stands for any directories.
-/

namespace FluentMigration
namespace Glob

/-- What a place in a name may hold. -/
inductive Token where
  | char (c : Char)
  | anyChar
  /-- One of the characters in the ranges, or one in none of them. -/
  | oneOf (negated : Bool) (ranges : List (Char × Char))
  | sequence
  /-- Any directories, down to any depth. -/
  | directories
  deriving DecidableEq, Inhabited

inductive Cause where
  | wildcards
  | directories
  | range
  deriving DecidableEq, Inhabited

/-- Why a text is no pattern, and the place of the fault. -/
structure Malformed where
  position : Nat
  cause : Cause
  deriving DecidableEq, Inhabited

def Cause.message : Cause → String
  | wildcards => "wildcards are either regular `*` or recursive `**`"
  | directories => "recursive wildcards must form a single path component"
  | range => "invalid range pattern"

def Malformed.message (m : Malformed) : String :=
  "Pattern syntax error near position " ++ toString m.position ++ ": " ++ m.cause.message

def ranges : List Char → List (Char × Char)
  | a :: '-' :: b :: r => (a, b) :: ranges r
  | a :: r => (a, a) :: ranges r
  | [] => []

/-- The characters of a set up to its closing bracket, of which the first one is never that bracket,
and the rest. -/
def splitSet : List Char → Option (List Char × List Char)
  | [] => none
  | c :: r => (Text.cut ']' r).map fun (set, rest) => (c :: set, rest)

/-- A set after its opening bracket. -/
def set? : List Char → Option (Token × List Char)
  | '!' :: r => (splitSet r).map fun (set, rest) => (.oneOf true (ranges set), rest)
  | r => (splitSet r).map fun (set, rest) => (.oneOf false (ranges set), rest)

/-- A row of asterisks: what it stands for and the rest. `atStart` tells whether a name begins with
the row. -/
def asterisks (position : Nat) (atStart : Bool) (s : List Char) :
    Except Malformed (Token × List Char) :=
  let count := (s.takeWhile (· == '*')).length
  let rest := s.drop count
  if 2 < count then .error ⟨position + 2, .wildcards⟩
  else if count = 1 then .ok (.sequence, rest)
  else if !atStart then .error ⟨position - 1, .directories⟩
  else match rest with
    | [] => .ok (.directories, [])
    | '/' :: r => .ok (.directories, r)
    | _ => .error ⟨position + 2, .directories⟩

def tokensFrom (length : Nat) (atStart : Bool) : Nat → List Char → Except Malformed (List Token)
  | n + 1, c :: r => do
    let position := length - (r.length + 1)
    let (token, rest) ←
      if c = '?' then .ok (Token.anyChar, r)
      else if c = '*' then asterisks position atStart (c :: r)
      else if c = '[' then
        match set? r with
        | some result => .ok result
        | none => .error ⟨position, .range⟩
      else .ok (.char c, r)
    let tokens ← tokensFrom length (token = .char '/' || token = .directories) n rest
    .ok (token :: tokens)
  | _, _ => .ok []

def tokens (s : List Char) : Except Malformed (List Token) :=
  tokensFrom s.length true s.length s

/-- Whether a token that stands for one character stands for this one. -/
def Token.accepts (token : Token) (c : Char) : Bool :=
  match token with
  | .char x => x == c
  | .anyChar => true
  | .oneOf negated ranges => negated != ranges.any fun (a, b) => a ≤ c && c ≤ b
  | .sequence | .directories => false

def accepts : List Token → List Char → Bool
  | [], s => s.isEmpty
  | .sequence :: rest, s => skip rest s
  | .directories :: rest, s => skip rest s
  | token :: rest, c :: r => token.accepts c && accepts rest r
  | _ :: _, [] => false
where
  /-- Whether the rest stands for an end of the name. -/
  skip (rest : List Token) : List Char → Bool
    | [] => accepts rest []
    | c :: r => accepts rest (c :: r) || skip rest r

def literal? (tokens : List Token) : Option String :=
  (tokens.mapM fun
    | Token.char c => some c
    | _ => none).map String.ofList

/-- The patterns of the names on a path, and whether it ends in a slash. -/
def names (s : List Char) : Except Malformed (List (List Token) × Bool) := do
  let pieces := Text.splitOn '/' s
  let closed := pieces.getLast? == some []
  let patterns ← (if closed then pieces.dropLast else pieces).mapM tokens
  .ok (patterns, closed)

def isPattern (path : String) : Bool := path.toList.any fun c => c == '*' || c == '?' || c == '['

end Glob
end FluentMigration
