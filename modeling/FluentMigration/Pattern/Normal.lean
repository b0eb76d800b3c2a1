import FluentMigration.Fluent.Basic
import FluentMigration.Text.Basic
/-!
The normal form of patterns. Fluent drops blanks at the ends of a value, so a normal pattern spells
them out: spaces at either end are a string literal of their own, and a line break at either end has
an empty literal next to it. A pattern without content is an empty literal.
-/

namespace FluentMigration
namespace Fluent

/-- A text, or a string literal of nothing but spaces: what can be joined with text next to it. -/
def Element.blankOrText? : Element → Option String
  | .text value => some value
  | .placeable (.inline (.string raw)) => if raw.toList.all (· == ' ') then some raw else none
  | .placeable _ => none

/-- Text and literals of spaces are joined with the text after them, and empty text is dropped. -/
def joinBlanks : List Element → List Element
  | [] => []
  | e :: rest =>
    match e.blankOrText? with
    | none => e :: joinBlanks rest
    | some content =>
      match joinBlanks rest with
      | .text more :: others => .text (content ++ more) :: others
      | others => if content.isEmpty then others else .text content :: others

/-- The spaces at the front of a text as a literal; an empty literal before a line break. -/
def markStart : List Element → List Element
  | .text value :: rest =>
    match value.toList with
    | ' ' :: r =>
      .literal (String.ofList (' ' :: r.takeWhile (· == ' '))) ::
        .text (String.ofList (r.dropWhile (· == ' '))) :: rest
    | '\n' :: _ => .literal "" :: .text value :: rest
    | _ => .text value :: rest
  | elements => elements

/-- A text whose last spaces are a literal, or that has an empty literal after its last line
break. -/
def markTextEnd (value : String) : List Element :=
  match value.toList.reverse with
  | ' ' :: r =>
    [.text (String.ofList (r.dropWhile (· == ' ')).reverse),
      .literal (String.ofList (' ' :: r.takeWhile (· == ' ')))]
  | '\n' :: _ => [.text value, .literal ""]
  | _ => [.text value]

def markEnd : List Element → List Element
  | [] => []
  | [.text value] => markTextEnd value
  | e :: rest => e :: markEnd rest

def dropEmpty (elements : List Element) : List Element :=
  elements.filter fun
    | .text value => !value.isEmpty
    | .placeable _ => true

def Pattern.blank : Pattern := ⟨[.literal ""]⟩

def Pattern.ofElements (elements : List Element) : Pattern :=
  match joinBlanks elements with
  | [] => .blank
  | joined => ⟨dropEmpty (markEnd (markStart joined))⟩

end Fluent

namespace Text

def isSpaceOrTab (c : Char) : Bool := c == ' ' || c == '\t'

def isLineBreak (c : Char) : Bool := c == '\r' || c == '\n'

/-- Drops the blanks around every line, and then the line breaks at both ends. -/
def trimLines (s : String) : String :=
  String.ofList
    (trim isLineBreak (join ['\n'] ((splitOn '\n' s.toList).map (trim isSpaceOrTab))))

end Text
end FluentMigration
