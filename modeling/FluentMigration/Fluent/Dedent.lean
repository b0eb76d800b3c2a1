import FluentMigration.Fluent.Basic
import FluentMigration.Text.Basic
/-!
From the pieces of a pattern as they stand in the source to its elements: the indentation that all
continuation lines share is removed, neighbouring text is joined, and blanks at the end are dropped.
-/

namespace FluentMigration
namespace Fluent

inductive Piece where
  | text (value : String)
  /-- Line breaks and the spaces before the text of the next line. -/
  | indent (newlines width : Nat)
  | placeable (content : Expression)

def Piece.width? : Piece → Option Nat
  | .indent _ width => some width
  | _ => none

def commonIndent (pieces : List Piece) : Nat :=
  (pieces.filterMap Piece.width?).min?.getD 0

/-- A piece as an element, `common` columns further left. -/
def Piece.element (common : Nat) : Piece → Element
  | .text value => .text value
  | .indent newlines width =>
    .text (String.ofList (List.replicate newlines '\n' ++ List.replicate (width - common) ' '))
  | .placeable content => .placeable content

/-- The line breaks before a pattern that starts on its own line are not part of it. -/
def openBlock : List Piece → List Piece
  | .indent _ width :: rest => .indent 0 width :: rest
  | pieces => pieces

def joinText : List Element → List Element
  | [] => []
  | .text a :: rest =>
    match joinText rest with
    | .text b :: more => .text (a ++ b) :: more
    | more => .text a :: more
  | e :: rest => e :: joinText rest

def trimText (value : String) : String :=
  String.ofList (Text.trimEnd (fun c => c == ' ' || c == '\n') value.toList)

/-- Spaces and line breaks at the end of the last text are dropped. -/
def trimLast : List Element → List Element
  | [] => []
  | [.text value] => [.text (trimText value)]
  | e :: rest => e :: trimLast rest

def Element.isEmptyText : Element → Bool
  | .text value => value.isEmpty
  | _ => false

def dropEmptyTexts (elements : List Element) : List Element :=
  elements.filter (!·.isEmptyText)

def Pattern.ofPieces (startsBlock : Bool) (pieces : List Piece) : Pattern :=
  let common := commonIndent pieces
  let pieces := if startsBlock then openBlock pieces else pieces
  ⟨dropEmptyTexts (trimLast (joinText (pieces.map (Piece.element common))))⟩

end Fluent
end FluentMigration
