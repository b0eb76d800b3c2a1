import FluentMigration.Text.Basic
/-!
Splitting a text at placeholders. Every occurrence of every key is found; of two keys that begin at
the same place the later one counts, and an occurrence that overlaps a placeholder already taken
stays text.
-/

namespace FluentMigration
namespace Placeholder

/-- A run of text, or the position in the list of keys of the placeholder found. -/
inductive Piece where
  | text (value : List Char)
  | placeholder (index : Nat)
  deriving DecidableEq

/-- The position of the last key with an occurrence at `offset`; empty keys occur nowhere. -/
def keyAt (keys : List (List Char)) (s : List Char) (offset : Nat) : Option Nat :=
  (keys.zipIdx.filter fun (key, _) =>
    !key.isEmpty && (Text.occurrences key s).contains offset).getLast?.map (·.2)

def consText (c : Char) : List Piece → List Piece
  | .text value :: rest => .text (c :: value) :: rest
  | pieces => .text [c] :: pieces

/-- The pieces of a text that begins at `offset`, where `key?` says which key begins where; the
first `skip` characters belong to a placeholder already taken. -/
def splitFrom (key? : Nat → Option Nat) (lengthOf : Nat → Nat) (offset skip : Nat) :
    List Char → List Piece
  | [] => [.text []]
  | c :: r =>
    match skip with
    | skip + 1 => splitFrom key? lengthOf (offset + 1) skip r
    | 0 =>
      match key? offset with
      | some index =>
        .text [] :: .placeholder index ::
          splitFrom key? lengthOf (offset + 1) (lengthOf index - 1) r
      | none => consText c (splitFrom key? lengthOf (offset + 1) 0 r)

def split (keys : List (List Char)) (s : List Char) : List Piece :=
  splitFrom (keyAt keys s) (fun index => (keys[index]?.getD []).length) 0 0 s

end Placeholder
end FluentMigration
